/-
The shapes of edits. Whatever rule records an edit, the edit is one of six things (`Shape`): a word of the vocabulary
spelled anew, `warna` and `agar` spelled as one, an attribute name, the blanks and `se` after a module name dropped,
or a semicolon inserted after a module name or after what was dropped. `shape_of_mem` proves it for all edits of a
text.

Each shape says what stands in the source at the edit and next to it. This is all that the later results about edits
use: that no two of them touch (`Disjointness`), and that none of them changes what is live (`LexicalStructure`).
-/
import Respell.Respelling
import Respell.Proofs.KeywordEdits
import Respell.Proofs.ImportForms

namespace Respell

open Vocabulary

/-! ## Shapes -/

/-- two bytes or more, none of which any region minds -/
def Harmless (text : Bytes) : Prop := 2 ≤ text.size ∧ text.all isInert = true

instance (text : Bytes) : Decidable (Harmless text) := by unfold Harmless; infer_instance

def className : Bytes := utf8 "class"

/-- the rule that spells a word which begins at `i` -/
def ruleOf (src : Bytes) (i : Nat) (word : Bytes) : Rule :=
  if word = importWord ∨ word = fromWord then .importLine
  else if word = className then .attribute
  else if afterMemberDot src i ∧ (members.find? word).isSome then .member
  else .keyword

/-- the byte at `k`, if there is one, may follow a statement -/
def EndsAt (src : Bytes) (k : Nat) : Prop :=
  src[k]?.all (fun b => isBlank b || b == ascii ';' || b == ascii '/' || isLineEnd b) = true

/-- what a side-effect import drops: blanks from `n` up to `m` after the quote of a module name, and the word `se` -/
structure Dropped (src : Bytes) (n m : Nat) : Prop where
  pos : 0 < n
  quote : src[n - 1]?.any ImportLine.isQuote = true
  lt : n < m
  blank : ∀ k, n ≤ k → k < m → src[k]?.any isBlank = true
  word : IsWord src m (m + 2)
  text : src.extract m (m + 2) = fromWord
  ends : EndsAt src (m + 2)

/-- what an edit can be, with what stands in the source around it -/
inductive Shape (src : Bytes) : Edit → Prop
  | word {rule : Rule} {i j : Nat} {host : String} (hw : IsWord src i j) (hr : ruleOf src i (src.extract i j) = rule)
    (hs : Harmless (src.extract i j)) (hh : Harmless (utf8 host)) : Shape src ⟨rule, i, j, host⟩
  | joined {i j n last : Nat} (hw : LiveWord src i j) (helse : src.extract i j = elseWord) (hg : Gap src j n)
    (hn : IsWord src n last) (hif : src.extract n last = ifWord) : Shape src ⟨.keyword, i, last, "else if"⟩
  | classMark {i : Nat} (hw : IsWord src i (i + 5)) (hs : src.extract i (i + 5) = className)
    (he : src[i + 5]? = some (ascii '=')) : Shape src ⟨.attribute, i, i + 6, hostClassMark⟩
  | drop {n m : Nat} (h : Dropped src n m) : Shape src ⟨.importLine, n, m + 2, ""⟩
  | closeDropped {n m : Nat} (h : Dropped src n m) : Shape src ⟨.importLine, m + 2, m + 2, ";"⟩
  | close {p : Nat} (hp : 0 < p) (hq : src[p - 1]?.any ImportLine.isQuote = true) (he : EndsAt src p) :
    Shape src ⟨.importLine, p, p, ";"⟩

/-! ## Keywords and members -/

theorem keywords_harmless : ∀ entry ∈ keywords, Harmless (utf8 entry.1) ∧ Harmless (utf8 entry.2) := by
  decide +kernel

theorem callees_harmless : ∀ entry ∈ callees, Harmless (utf8 entry.1) ∧ Harmless (utf8 entry.2) := by
  decide +kernel

/-- keywords belong to no other rule, wherever they stand -/
theorem keywords_rule : ∀ entry ∈ keywords, utf8 entry.1 ≠ importWord ∧ utf8 entry.1 ≠ fromWord ∧
    utf8 entry.1 ≠ className ∧ members.find? (utf8 entry.1) = none := by
  decide +kernel

theorem callees_rule : ∀ entry ∈ callees, utf8 entry.1 ≠ importWord ∧ utf8 entry.1 ≠ fromWord ∧
    utf8 entry.1 ≠ className := by
  decide +kernel

theorem ruleOf_eq_keyword {src : Bytes} {i : Nat} {word : Bytes} (h1 : word ≠ importWord) (h2 : word ≠ fromWord)
    (h3 : word ≠ className) (h4 : afterMemberDot src i = false ∨ members.find? word = none) :
    ruleOf src i word = .keyword := by
  rcases h4 with h4 | h4 <;> simp [ruleOf, h1, h2, h3, h4]

theorem shape_of_keyword {src : Bytes} {e : Edit} (h : e ∈ Keyword.edits src) : Shape src e ∧ e.rule = .keyword := by
  obtain ⟨i, j, last, host, hw, -, -, hsp, rfl⟩ := Keyword.mem_edits_iff.1 h
  refine ⟨?_, rfl⟩
  cases hsp with
  | elseIf helse hl =>
    obtain ⟨n, hg, hn, hif⟩ := hl
    exact .joined hw helse hg hn hif
  | asyncFunction _ hx _ | async _ hx _ =>
    refine .word hw.toIsWord ?_ ?_ (by decide +kernel)
    · rw [hx]
      exact ruleOf_eq_keyword (by decide) (by decide) (by decide) (.inr (by decide))
    · rw [hx]
      decide +kernel
  | callee _ _ hc hx =>
    obtain ⟨name, hmem, hname⟩ := hx
    obtain ⟨h1, h2, h3⟩ := callees_rule _ hmem
    obtain ⟨h4, h5⟩ := callees_harmless _ hmem
    rw [hname] at h1 h2 h3 h4
    exact .word hw.toIsWord (ruleOf_eq_keyword h1 h2 h3 (.inl hc.2.1)) h4 h5
  | keyword _ _ _ hx =>
    obtain ⟨name, hmem, hname⟩ := hx
    obtain ⟨h1, h2, h3, h4⟩ := keywords_rule _ hmem
    obtain ⟨h5, h6⟩ := keywords_harmless _ hmem
    rw [hname] at h1 h2 h3 h4 h5
    exact .word hw.toIsWord (ruleOf_eq_keyword h1 h2 h3 (.inr h4)) h5 h6

theorem members_rule : ∀ entry ∈ members, Harmless (utf8 entry.1) ∧ Harmless (utf8 entry.2) ∧
    utf8 entry.1 ≠ importWord ∧ utf8 entry.1 ≠ fromWord ∧ utf8 entry.1 ≠ className := by
  decide +kernel

theorem members_nodup : (members.map fun entry => utf8 entry.1).Nodup := by decide +kernel

/-- what the member rule records: the word after a member dot, up to which it reads -/
theorem mem_member_rule {src : Bytes} {r : Region} {i : Nat} {b : UInt8} {e : Edit}
    (h : e ∈ (Member.rule src r i b).edits) :
    ∃ host, isMemberDot src i = true ∧ src[i + 1]?.any opensWord = true ∧
      members.find? (src.extract (i + 1) (endOfWord src (i + 1))) = some host ∧
      e = ⟨.member, i + 1, endOfWord src (i + 1), host⟩ ∧
      (Member.rule src r i b).readTo = endOfWord src (i + 1) := by
  simp only [Member.rule] at h ⊢
  split at h
  · cases h
  · next hw =>
    split at h
    · next hd =>
      split at h
      · next host hf =>
        simp only [Bool.and_eq_true] at hd
        refine ⟨host, hd.1, hd.2, hf, List.mem_singleton.1 h, ?_⟩
        simp [hw, hd.1, hd.2]
      · cases h
    · cases h

theorem isWord_after_dot {src : Bytes} {i : Nat} (hd : isMemberDot src i = true)
    (ho : src[i + 1]?.any opensWord = true) :
    IsWord src (i + 1) (endOfWord src (i + 1)) ∧ afterMemberDot src (i + 1) = true := by
  have hdot : src[i]? = some (ascii '.') := by
    simp only [isMemberDot, Bool.and_eq_true, beq_iff_eq] at hd
    exact hd.1.1
  obtain ⟨b, hb, hbo⟩ := (Option.any_eq_true _ _).1 ho
  refine ⟨isWord_endOfWord (by rw [hb]; exact inWord_of_opensWord hbo) ?_, ?_⟩
  · intro k hk
    obtain rfl : k = i := by omega
    rw [hdot]
    decide
  · rw [afterMemberDot, hdot]
    exact hd

theorem shape_of_member {src : Bytes} {e : Edit} (h : e ∈ Member.edits src) : Shape src e ∧ e.rule = .member := by
  obtain ⟨r, i, b, -, -, he⟩ := mem_sweep h
  obtain ⟨host, hd, ho, hf, rfl, -⟩ := mem_member_rule he
  obtain ⟨hw, hm⟩ := isWord_after_dot hd ho
  obtain ⟨name, hmem, hname⟩ := (Keyword.find?_eq_some_iff members_nodup).1 hf
  obtain ⟨h1, h2, h3, h4, h5⟩ := members_rule _ hmem
  rw [hname] at h1 h3 h4 h5
  refine ⟨.word hw ?_ h1 h2, rfl⟩
  simp [ruleOf, h3, h4, h5, hm, hf]

/-! ## Attributes -/

theorem isWord_of_classMark {src : Bytes} {i : Nat} (h : Attribute.isClassMark src i = true) :
    IsWord src i (i + 5) ∧ src.extract i (i + 5) = className ∧ src[i + 5]? = some (ascii '=') := by
  simp only [Attribute.isClassMark, Bool.and_eq_true, beq_iff_eq, Bool.not_eq_true'] at h
  obtain ⟨hmark, hprev⟩ := h
  have hget : ∀ k < 6, src[i + k]? = classMark[k]? := fun k hk => getElem?_of_extract hmark hk
  have hname : ∀ k < 5, classMark[k]? = className[k]? := by decide
  have hin : ∀ k < 5, classMark[k]?.any inWord = true := by decide
  have heq : src[i + 5]? = some (ascii '=') := hget 5 (by omega)
  refine ⟨⟨by omega, ?_, ?_, by rw [heq]; decide⟩, ?_, heq⟩
  · intro k h1 h2
    obtain ⟨m, rfl⟩ := Nat.exists_eq_add_of_le h1
    rw [hget m (by omega)]
    exact hin m (by omega)
  · intro k hk
    obtain rfl : k = i - 1 := by omega
    cases hb : src[i - 1]? with
    | none => rfl
    | some b =>
      rw [hb] at hprev
      simp only [Option.any_some, Bool.or_eq_false_iff] at hprev
      exact hprev.1.1
  · exact @extract_eq _ className _ fun k hk => (hget k (Nat.lt_succ_of_lt hk)).trans (hname k hk)

/-- what is found in a tag that goes on at `j`: whole attribute names, one behind the other, before the tag's end -/
structure TagMarks (src : Bytes) (j : Nat) (found : List Nat × Nat) : Prop where
  le : min j src.size ≤ found.2
  mark : ∀ x ∈ found.1, j ≤ x ∧ Attribute.isClassMark src x = true ∧ x + 6 ≤ found.2
  apart : found.1.Pairwise fun x y => x + 6 ≤ y

theorem TagMarks.mono {src : Bytes} {j j' : Nat} {found : List Nat × Nat} (h : TagMarks src j' found) (hle : j ≤ j') :
    TagMarks src j found where
  le := Nat.le_trans (by omega) h.le
  mark x hx := ⟨Nat.le_trans hle (h.mark x hx).1, (h.mark x hx).2⟩
  apart := h.apart

theorem tagMarks_tag (src : Bytes) (quote : Option UInt8) (j : Nat) :
    TagMarks src j (Attribute.tag src quote j) := by
  fun_induction Attribute.tag src quote j with
  | case1 j h b q ih => exact ih.mono (Nat.le_succ j)
  | case2 j h b hb => exact ⟨by omega, by simp, .nil⟩
  | case3 j h b _ hb ih => exact ih.mono (Nat.le_of_lt (Attribute.lt_endOfBraces src j h))
  | case4 j h b _ _ hb ih => exact ih.mono (Nat.le_succ j)
  | case5 j h b _ _ _ hm rest ih =>
    have hsize : j + 6 ≤ src.size := by
      obtain ⟨hlt, -⟩ := Array.getElem?_eq_some_iff.1 (isWord_of_classMark hm).2.2
      omega
    have hmin : j + 6 ≤ min (j + classMark.size) src.size := Nat.le_min.2 ⟨Nat.le_refl _, hsize⟩
    have hle : j + 6 ≤ rest.2 := Nat.le_trans hmin ih.le
    refine ⟨Nat.le_trans (by omega) hle, ?_, List.pairwise_cons.2 ⟨fun x hx => (ih.mark x hx).1, ih.apart⟩⟩
    intro x hx
    rcases List.mem_cons.1 hx with rfl | hx
    · exact ⟨Nat.le_refl _, hm, hle⟩
    · exact ⟨Nat.le_trans (Nat.le_add_right j _) (ih.mark x hx).1, (ih.mark x hx).2⟩
  | case6 j h b _ _ _ _ ih => exact ih.mono (Nat.le_succ j)
  | case7 j quote h => exact ⟨Nat.min_le_right _ _, by simp, .nil⟩

/-- what the attribute rule records: the names in the tag that the byte opens -/
theorem mem_attribute_rule {src : Bytes} {r : Region} {i : Nat} {b : UInt8} {e : Edit}
    (h : e ∈ (Attribute.rule src r i b).edits) :
    ∃ x ∈ (Attribute.tag src none (i + 1)).1, e = ⟨.attribute, x, x + 6, hostClassMark⟩ ∧
      (Attribute.rule src r i b).readTo = (Attribute.tag src none (i + 1)).2 := by
  simp only [Attribute.rule] at h ⊢
  split at h
  · next ht =>
    obtain ⟨x, hx, rfl⟩ := List.mem_map.1 h
    exact ⟨x, hx, rfl, by rw [if_pos ht]⟩
  · cases h

theorem shape_of_attribute {src : Bytes} {e : Edit} (h : e ∈ Attribute.edits src) :
    Shape src e ∧ e.rule = .attribute := by
  obtain ⟨r, i, b, -, -, he⟩ := mem_sweep h
  obtain ⟨x, hx, rfl, -⟩ := mem_attribute_rule he
  obtain ⟨hw, hs, heq⟩ := isWord_of_classMark ((tagMarks_tag src none (i + 1)).mark x hx).2.1
  exact ⟨.classMark hw hs heq, rfl⟩

/-! ## Import lines -/

/-- the text from `base` on is `text`, up to the end of its line -/
structure Reads (src : Bytes) (base : Nat) (text : List UInt8) : Prop where
  get : ∀ k < text.length, src[base + k]? = text[k]?
  stop : src[base + text.length]?.all isLineEnd = true

namespace Reads

variable {src : Bytes} {base : Nat} {text : List UInt8}

theorem drop (h : Reads src base text) {n : Nat} (hn : n ≤ text.length) : Reads src (base + n) (text.drop n) where
  get k hk := by
    rw [List.length_drop] at hk
    rw [List.getElem?_drop, ← h.get _ (by omega), Nat.add_assoc]
  stop := by
    rw [List.length_drop, show base + n + (text.length - n) = base + text.length by omega]
    exact h.stop

theorem any (h : Reads src base text) {p : UInt8 → Bool} {k : Nat} (hk : text[k]?.any p = true) :
    k < text.length ∧ src[base + k]?.any p = true := by
  have hlt : k < text.length := by
    by_contra hge
    rw [List.getElem?_eq_none (by omega)] at hk
    cases hk
  exact ⟨hlt, by rw [h.get k hlt]; exact hk⟩

theorem some (h : Reads src base text) {b : UInt8} {k : Nat} (hk : text[k]? = Option.some b) :
    k < text.length ∧ src[base + k]? = Option.some b := by
  obtain ⟨hlt, -⟩ := List.getElem?_eq_some_iff.1 hk
  exact ⟨hlt, by rw [h.get k hlt]; exact hk⟩

/-- up to the end of the line, a class that holds line ends may be read off from either -/
theorem all (h : Reads src base text) {p : UInt8 → Bool} (hp : ∀ b, isLineEnd b = true → p b = true) {k : Nat}
    (hle : k ≤ text.length) (hk : text[k]?.all p = true) : src[base + k]?.all p = true := by
  rcases Nat.eq_or_lt_of_le hle with rfl | hlt
  · exact all_of_all hp h.stop
  · rw [h.get k hlt]
    exact hk

end Reads

theorem reads_line {src : Bytes} {i : Nat} (h : i ≤ src.size) :
    Reads src i (src.extract i (skipWhile (fun b => !isLineEnd b) src i)).toList := by
  have h1 := le_skipWhile (fun b => !isLineEnd b) src i
  have h2 := skipWhile_le (fun b => !isLineEnd b) src i h
  have h3 := skipWhile_stops (fun b => !isLineEnd b) src i
  generalize skipWhile (fun b => !isLineEnd b) src i = stop at *
  constructor
  · intro k hk
    rw [Array.length_toList] at hk
    rw [Array.getElem?_toList]
    exact getElem?_of_extract rfl hk
  · rw [Array.length_toList, Array.size_extract, show i + (min stop src.size - i) = stop by omega]
    exact all_of_any_eq_false (by simp) h3

theorem endsAt_of_tailAt {src : Bytes} {base : Nat} {text : List UInt8} (hr : Reads src base text) {k : Nat}
    (hk : k ≤ text.length) (h : ImportLine.TailAt text k) : EndsAt src (base + k) := by
  refine hr.all (by simp +contextual) hk (all_of_all ?_ h)
  intro b hb
  rw [Bool.or_eq_true]
  exact .inl hb

/-- the word `se`, with blanks or the end of a name around it -/
theorem isWord_from {src : Bytes} {base : Nat} {text : List UInt8} (hr : Reads src base text) {k : Nat}
    (hf : ImportLine.FromAt text k) (hb : ∀ n, n + 1 = base + k → src[n]?.any inWord = false)
    (ha : text[k + 2]?.any inWord = false) :
    IsWord src (base + k) (base + k + 2) ∧ src.extract (base + k) (base + k + 2) = fromWord ∧ k + 2 ≤ text.length := by
  obtain ⟨-, hs⟩ := hr.some hf.1
  obtain ⟨hlt, he⟩ := hr.some hf.2
  have hget : ∀ m < 2, src[base + k + m]? = fromWord[m]? := by
    intro m hm
    match m, hm with
    | 0, _ => exact hs
    | 1, _ => exact he
  refine ⟨⟨by omega, ?_, hb, ?_⟩, @extract_eq _ fromWord _ hget, hlt⟩
  · intro n h1 h2
    obtain ⟨m, rfl⟩ := Nat.exists_eq_add_of_le h1
    have hin : ∀ m < 2, fromWord[m]?.any inWord = true := by decide
    rw [hget m (by omega)]
    exact hin m (by omega)
  · have hnot : text[k + 2]?.all (fun b => !inWord b) = true := all_of_any_eq_false (by simp) ha
    exact any_eq_false_of_all (by simp) (hr.all (by decide +kernel) hlt hnot)

/-- `a` begins before `b` and ends at its beginning or before -/
def Edit.Before (a b : Edit) : Prop := a.start < b.start ∧ a.stop ≤ b.start

/-- the edits of an import line: the word `le`, the middle, and a semicolon if the line brings none -/
theorem formEdits_sublist (form : ImportLine.Form) (i base : Nat) :
    ∃ mid p, (form.edits i base).Sublist
        [⟨.importLine, i, i + 2, "import"⟩, mid, Edit.insertion .importLine p ";"] ∧
      match form with
      | .sideEffect name mark _ => mid = ⟨.importLine, base + name, base + mark, ""⟩ ∧ p = base + mark
      | .bindings mark name _ => mid = ⟨.importLine, base + mark, base + mark + 2, "from"⟩ ∧ p = base + name := by
  cases form with
  | sideEffect name mark closed =>
    refine ⟨_, _, ?_, rfl, rfl⟩
    cases closed
    · exact List.Sublist.refl _
    · exact ((List.nil_sublist _).cons_cons _).cons_cons _
  | bindings mark name closed =>
    refine ⟨_, _, ?_, rfl, rfl⟩
    cases closed
    · exact List.Sublist.refl _
    · exact ((List.nil_sublist _).cons_cons _).cons_cons _

/-- what holds of the edits of one import line: their shapes, their place on the line, and their order -/
structure LineEdits (src : Bytes) (i stop : Nat) (edits : List Edit) : Prop where
  shape : ∀ e ∈ edits, Shape src e ∧ e.rule = .importLine
  range : ∀ e ∈ edits, i ≤ e.start ∧ e.stop ≤ stop
  order : edits.Pairwise Edit.Before

theorem LineEdits.sublist {src : Bytes} {i stop : Nat} {edits edits' : List Edit} (h : LineEdits src i stop edits')
    (hs : edits.Sublist edits') : LineEdits src i stop edits where
  shape e he := h.shape e (hs.subset he)
  range e he := h.range e (hs.subset he)
  order := h.order.sublist hs

theorem shape_importWord {src : Bytes} {i : Nat} (hw : IsWord src i (i + 2))
    (hx : src.extract i (i + 2) = importWord) : Shape src ⟨.importLine, i, i + 2, "import"⟩ := by
  refine .word hw ?_ ?_ (by decide +kernel)
  · simp [ruleOf, hx]
  · rw [hx]
    decide +kernel

theorem Reads.not_inWord_before {src : Bytes} {base k : Nat} {text : List UInt8} (hr : Reads src base text) (hk : 0 < k)
    (h : text[k - 1]?.any isBlank = true) : ∀ n, n + 1 = base + k → src[n]?.any inWord = false := by
  intro n hn
  have hblank := (hr.any h).2
  rw [show base + (k - 1) = n by omega] at hblank
  exact any_eq_false_of_any inWord_of_isBlank hblank

theorem Reads.quote {src : Bytes} {base k : Nat} {text : List UInt8} (hr : Reads src base text) (hk : 0 < k)
    (h : text[k - 1]?.any ImportLine.isQuote = true) : src[base + k - 1]?.any ImportLine.isQuote = true := by
  have hquote := (hr.any h).2
  rwa [show base + (k - 1) = base + k - 1 by omega] at hquote

theorem Reads.dropped {src : Bytes} {base name gap : Nat} {closed : Bool} {text : List UInt8}
    (hr : Reads src base text) (hp : (ImportLine.Form.sideEffect name (name + gap + 2) closed).Parts text) :
    Dropped src (base + name) (base + (name + gap)) ∧ name + gap + 2 ≤ text.length := by
  generalize hmark : name + gap + 2 = mark at hp
  cases hp with
  | @sideEffect _ gap' _ hname hquote hgap hblank hfrom hafter htail =>
    obtain rfl : gap = gap' := by omega
    have hbefore := hr.not_inWord_before (by omega) (hblank (name + gap - 1) (by omega) (by omega))
    obtain ⟨hword, htext, hlen⟩ := isWord_from hr hfrom hbefore hafter
    refine ⟨⟨by omega, hr.quote hname hquote, by omega, ?_, hword, htext, endsAt_of_tailAt hr hlen htail⟩, hlen⟩
    intro k h1 h2
    have hk := (hr.any (hblank (k - base) (by omega) (by omega))).2
    rwa [show base + (k - base) = k by omega] at hk

theorem lineEdits_form {src : Bytes} {i base : Nat} {text : List UInt8} {form : ImportLine.Form}
    (hw : IsWord src i (i + 2)) (hx : src.extract i (i + 2) = importWord) (hi : i + 2 ≤ base)
    (hr : Reads src base text) (hp : form.Parts text) :
    LineEdits src i (base + text.length) (form.edits i base) := by
  have hhead := shape_importWord hw hx
  obtain ⟨mid, p, hsub, hmid⟩ := formEdits_sublist form i base
  refine LineEdits.sublist ?_ hsub
  cases id hp with
  | @sideEffect name gap closed hname =>
    obtain ⟨rfl, rfl⟩ := hmid
    obtain ⟨hdrop, hlen⟩ := hr.dropped hp
    have hlt := hdrop.lt
    refine ⟨?_, by simp [Edit.insertion]; omega, by simp [Edit.insertion, Edit.Before]; omega⟩
    intro e he
    simp only [List.mem_cons, List.not_mem_nil, or_false] at he
    rcases he with rfl | rfl | rfl
    · exact ⟨hhead, rfl⟩
    · exact ⟨.drop hdrop, rfl⟩
    · exact ⟨.closeDropped hdrop, rfl⟩
  | @bindings mark name closed hmark hbefore hfrom hafter hlt hquote htail =>
    obtain ⟨rfl, rfl⟩ := hmid
    have hend := any_eq_false_of_any inWord_of_isBlank hafter
    obtain ⟨hword, htext, -⟩ := isWord_from hr hfrom (hr.not_inWord_before hmark hbefore) hend
    have hlen := (hr.any hquote).1
    have hclose : Shape src ⟨.importLine, base + name, base + name, ";"⟩ :=
      .close (by omega) (hr.quote (by omega) hquote) (endsAt_of_tailAt hr (by omega) htail)
    refine ⟨?_, by simp [Edit.insertion]; omega, by simp [Edit.insertion, Edit.Before]; omega⟩
    intro e he
    simp only [List.mem_cons, List.not_mem_nil, or_false] at he
    rcases he with rfl | rfl | rfl
    · exact ⟨hhead, rfl⟩
    · refine ⟨.word hword ?_ ?_ (by decide +kernel), rfl⟩
      · simp [ruleOf, htext]
      · rw [htext]
        decide +kernel
    · exact ⟨hclose, rfl⟩

/-- the line whose word `le` stands at `i` is no import line, or has a form, read behind the blanks after the word -/
theorem lineEdits_cases {src : Bytes} {i : Nat} (hi : i + 2 ≤ src.size) :
    ImportLine.lineEdits src i = [] ∨
      ∃ base text form, i + 2 ≤ base ∧ Reads src base text ∧ ImportLine.Form.Parts text form ∧
        base + text.length = skipWhile (fun b => !isLineEnd b) src (i + 2) ∧
        ImportLine.lineEdits src i = form.edits i base := by
  have hr := reads_line hi
  have hle := le_skipWhile (fun b => !isLineEnd b) src (i + 2)
  have hsize := skipWhile_le (fun b => !isLineEnd b) src (i + 2) hi
  unfold ImportLine.lineEdits
  rw [show importWord.size = 2 by decide]
  simp only
  generalize hline : (src.extract (i + 2) (skipWhile (fun b => !isLineEnd b) src (i + 2))).toList = text at *
  generalize skipWhile (fun b => !isLineEnd b) src (i + 2) = stop at *
  have hgap : ImportLine.blanks text ≤ text.length := (List.takeWhile_sublist _).length_le
  have hlen : i + 2 + text.length = stop := by
    rw [← hline, Array.length_toList, Array.size_extract]
    omega
  split
  · exact .inl rfl
  · next h0 =>
    split
    · next form hform =>
      have hparts := ImportLine.parts_of_body? (Nat.pos_of_ne_zero h0) hform
      refine .inr ⟨_, _, form, Nat.le_add_right _ _, hr.drop hgap, hparts, ?_, rfl⟩
      rw [List.length_drop]
      omega
    · exact .inl rfl

theorem lineEdits_line {src : Bytes} {i : Nat} (hw : IsWord src i (i + 2)) (hx : src.extract i (i + 2) = importWord) :
    LineEdits src i (skipWhile (fun b => !isLineEnd b) src (i + 2)) (ImportLine.lineEdits src i) := by
  rcases lineEdits_cases hw.le_size with hnil | ⟨base, text, form, hi, hr, hp, hstop, heq⟩
  · rw [hnil]
    exact ⟨by simp, by simp, .nil⟩
  · rw [heq, ← hstop]
    exact lineEdits_form hw hx hi hr hp

theorem inWord_of_isLineEnd : ∀ b, isLineEnd b = true → inWord b = false := by
  intro b hb
  rcases isLineEnd_cases hb with rfl | rfl <;> decide

theorem isLineEnd_of_inWord : ∀ b, inWord b = true → isLineEnd b = false := by
  intro b hb
  by_contra hend
  rw [inWord_of_isLineEnd b (by simpa using hend)] at hb
  cases hb

theorem before_of_opensLine {src : Bytes} {i k : Nat} (h : opensLine src i = true) (hk : k + 1 = i) :
    src[k]?.any inWord = false := by
  subst hk
  simp only [opensLine] at h
  cases hb : src[k]? with
  | none => rfl
  | some b =>
    simp only [hb, Bool.or_eq_true, Bool.and_eq_true] at h
    rcases h with h | h
    · exact inWord_of_isLineEnd b h
    · exact inWord_of_isBlank b h.1

/-- between a byte that is no blank and what opens a line after it, a line ends -/
theorem exists_lineEnd {src : Bytes} {i n : Nat} (h : opensLine src n = true) (hn : n ≤ src.size) (hlt : i < n)
    (hi : src[i]?.any isBlank = false) : ∃ e, i ≤ e ∧ e < n ∧ src[e]?.any isLineEnd = true := by
  induction n with
  | zero => omega
  | succ n ih =>
    have hb : src[n]? = some src[n] := by simp [show n < src.size by omega]
    simp only [opensLine, hb, Bool.or_eq_true, Bool.and_eq_true] at h
    rcases h with h | ⟨hblank, h⟩
    · exact ⟨n, by omega, by omega, by simpa [hb] using h⟩
    · have hne : i ≠ n := by
        rintro rfl
        rw [hb] at hi
        simp [hblank] at hi
      obtain ⟨e, h1, h2, h3⟩ := ih h (by omega) (by omega)
      exact ⟨e, h1, by omega, h3⟩

/-- a line that begins with `le` ends before the next line is opened -/
theorem lineEnd_lt {src : Bytes} {i n : Nat} (hw : IsWord src i (i + 2)) (h : opensLine src n = true)
    (hn : n ≤ src.size) (hlt : i < n) : skipWhile (fun b => !isLineEnd b) src (i + 2) < n := by
  obtain ⟨e, h1, h2, h3⟩ := exists_lineEnd h hn hlt (any_eq_false_of_any isBlank_of_inWord hw.first)
  have hge : i + 2 ≤ e := by
    by_contra hin
    have := any_eq_false_of_any inWord_of_isLineEnd h3
    rw [hw.inside e h1 (by omega)] at this
    cases this
  by_contra hge'
  have hpass := skipWhile_passes hge (Nat.lt_of_lt_of_le h2 (Nat.le_of_not_lt hge'))
  obtain ⟨b, hb, hend⟩ := (Option.any_eq_true _ _).1 h3
  simp [hb, hend] at hpass

/-- what the import rule records: the edits of a line that begins with the word `le` -/
theorem mem_import_rule {src : Bytes} {r : Region} {i : Nat} {b : UInt8} (hb : src[i]? = some b) {e : Edit}
    (h : e ∈ (ImportLine.rule src r i b).edits) :
    IsWord src i (i + 2) ∧ src.extract i (i + 2) = importWord ∧ opensLine src i = true ∧ r = .normal ∧
      (ImportLine.rule src r i b).edits = ImportLine.lineEdits src i := by
  obtain ⟨hlt, -⟩ := Array.getElem?_eq_some_iff.1 hb
  simp only [ImportLine.rule] at h ⊢
  split at h
  · next hin =>
    rw [if_pos hin]
    split at h
    · next hc =>
      obtain ⟨hr, hx, hopen⟩ := id hc
      have hw : IsWord src i (endOfWord src i) :=
        isWord_endOfWord (by simpa [hb] using hin) fun k hk => before_of_opensLine hopen hk
      have hstop : endOfWord src i = i + 2 := by
        have hsize := congrArg Array.size hx
        have hle := hw.le_size
        have hpos := hw.lt
        rw [Array.size_extract, show importWord.size = 2 by decide] at hsize
        omega
      rw [if_pos hc]
      rw [hstop] at hw hx
      exact ⟨hw, hx, hopen, hr, rfl⟩
    · cases h
  · cases h

theorem shape_of_import {src : Bytes} {e : Edit} (h : e ∈ ImportLine.edits src) :
    Shape src e ∧ e.rule = .importLine := by
  obtain ⟨r, i, b, -, hb, he⟩ := mem_sweep h
  obtain ⟨hw, hx, -, -, heq⟩ := mem_import_rule hb he
  exact (lineEdits_line hw hx).shape e (heq ▸ he)

theorem Shape.le {src : Bytes} {e : Edit} (h : Shape src e) : e.start ≤ e.stop := by
  cases h with
  | word hw => exact Nat.le_of_lt hw.lt
  | joined hw _ hg hn => exact Nat.le_trans (Nat.le_of_lt hw.lt) (Nat.le_trans hg.le (Nat.le_of_lt hn.lt))
  | classMark => exact Nat.le_add_right _ _
  | drop h => exact Nat.le_trans (Nat.le_of_lt h.lt) (Nat.le_add_right _ _)
  | closeDropped | close => exact Nat.le_refl _

/-- **Every edit has a shape.** -/
theorem shape_of_mem {src : Bytes} {e : Edit} (h : e ∈ allEdits src) : Shape src e := by
  simp only [allEdits, List.mem_append] at h
  rcases h with ((h | h) | h) | h
  · exact (shape_of_import h).1
  · exact (shape_of_keyword h).1
  · exact (shape_of_attribute h).1
  · exact (shape_of_member h).1

end Respell
