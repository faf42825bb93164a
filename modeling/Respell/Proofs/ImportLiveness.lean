/-
Import lines and what is live. The word `le` of an import line is always live. The other edits of the line are made
where the bytes of the line alone say so, and nothing there asks whether a comment, a string or a template has been
opened since.

Main result, `import_respects_iff`: such an edit respects comments, strings and templates just when the part of the
line between `le` and the edit, scanned on its own, ends in live code. `import_in_comment` is a line on which it does
not.

Normal code waits for nothing (`nested_cursorAt`), so scanning goes on after `le` as it does at the beginning of a text,
and a part of the line may be scanned on its own (`cursorAt_extract`).
-/
import Mathlib
import Respell.Proofs.LexicalStructure
import Respell.Proofs.NestedRegions

namespace Respell

open Vocabulary

/-! ## Scanning a part on its own -/

/-- a part that begins where nothing is open, scanned on its own, ends as it does in the text -/
theorem cursorAt_extract {src : Bytes} {i j : Nat} (hstart : cursorAt src i = .start) (hij : i ≤ j) (hj : j ≤ src.size)
    (hlast : ∀ k, i ≤ k → k + 1 = j → src[k]?.any isSettled = true) (hnext : src[j]?.any isContinuation = false) :
    cursorAt src j = ⟨(Scanner.walk (src.extract i j) .start).2.region,
      (Scanner.walk (src.extract i j) .start).2.suspended, .nothing⟩ := by
  have hsize : (src.extract i j).size = j - i := by
    rw [Array.size_extract]
    omega
  have hkeep : ∀ k < j - i, (src.extract i j)[0 + k]? = src[i + k]? := by
    intro k hk
    rw [Nat.zero_add]
    exact (getElem?_of_extract rfl (by omega)).symm
  have hzero : cursorAt (src.extract i j) 0 = cursorAt src i := hstart.symm
  obtain ⟨hcur, -⟩ := cursorAt_kept hj hzero hkeep fun k b hk1 hk2 hb => by
    have hset := hlast k hk1 hk2
    rw [hb] at hset
    rw [hk2, Cursor.feed_settled hset hnext, Array.getElem?_eq_none (by omega)]
  rw [← walk_end, hsize, ← Nat.zero_add (j - i), hcur _ (Nat.le_refl _), Nat.add_sub_cancel' hij]

/-! ## Where an edit stands -/

/-- between the bytes before and after offset `p` a walk is in live code, and not inside a mark -/
def InCode (src : Bytes) (p : Nat) : Prop := (cursorAt src p).region.isCode = true ∧ (cursorAt src p).rest = .nothing

/-- what the edit takes out is live; if it takes out nothing, it stands in live code -/
def Respects (src : Bytes) (e : Edit) : Prop :=
  (∀ k, e.start ≤ k → k < e.stop → Live src k) ∧ (e.start = e.stop → InCode src e.start)

/-- an edit that takes out words and whitespace respects what is live just when it begins in live code -/
theorem respects_iff {src : Bytes} {e : Edit} (hle : e.start ≤ e.stop)
    (hp : ∀ k, e.start ≤ k → k < e.stop → src[k]?.any isPassive = true) : Respects src e ↔ InCode src e.start := by
  constructor
  · rintro ⟨hlive, hins⟩
    rcases Nat.eq_or_lt_of_le hle with heq | hlt
    · exact hins heq
    · obtain ⟨r, hr⟩ := Option.ne_none_iff_exists'.1 (live_iff.1 (hlive e.start (Nat.le_refl _) hlt))
      obtain ⟨h1, h2, -⟩ := liveAt_some hr
      exact ⟨h2, h1⟩
  · rintro ⟨hcode, hrest⟩
    refine ⟨?_, fun _ => ⟨hcode, hrest⟩⟩
    intro k h1 h2
    rw [live_iff, (cursorAt_passive hrest hcode hle hp).2 k h1 h2]
    exact Option.some_ne_none _

/-- an edit of the import line whose word `le` stands at `i`, behind that word -/
structure Placed (src : Bytes) (i : Nat) (e : Edit) : Prop where
  after : i + 2 ≤ e.start
  le : e.start ≤ e.stop
  within : e.stop ≤ src.size
  last : ∀ k, k + 1 = e.start → src[k]?.any isSettled = true
  next : src[e.start]?.any isContinuation = false
  passive : ∀ k, e.start ≤ k → k < e.stop → src[k]?.any isPassive = true

theorem isSettled_of_isQuote {o : Option UInt8} (h : o.any ImportLine.isQuote = true) : o.any isSettled = true :=
  any_of_any (by simp +contextual [isSettled]) h

theorem isSettled_of_isInert {o : Option UInt8} (h : o.any isInert = true) : o.any isSettled = true :=
  any_of_any (by simp +contextual [isSettled]) h

theorem Dropped.placed {src : Bytes} {i n m : Nat} (h : Dropped src n m) (hi : i + 2 ≤ n) :
    Placed src i ⟨.importLine, n, m + 2, ""⟩ where
  after := hi
  le := Nat.le_trans (Nat.le_of_lt h.lt) (Nat.le_add_right _ _)
  within := h.word.le_size
  last := by
    rintro k rfl
    exact isSettled_of_isQuote h.quote
  next := h.not_continuation
  passive := by
    intro k h1 h2
    by_cases hk : k < m
    · exact isPassive_of_isSpace (isSpace_of_isBlank (h.blank k h1 hk))
    · exact isPassive_of_inWord (h.word.inside k (Nat.le_of_not_lt hk) h2)

theorem placed_close {src : Bytes} {i p : Nat} (hi : i + 2 ≤ p) (hp : p ≤ src.size)
    (hlast : ∀ k, k + 1 = p → src[k]?.any isSettled = true) (he : EndsAt src p) :
    Placed src i ⟨.importLine, p, p, ";"⟩ where
  after := hi
  le := Nat.le_refl _
  within := hp
  last := hlast
  next := he.not_continuation
  passive _ h1 h2 := absurd h1 (Nat.not_le.2 h2)

theorem placed_word {src : Bytes} {i p : Nat} {host : String} (hi : i + 2 ≤ p) (hw : IsWord src p (p + 2))
    (hblank : ∀ k, k + 1 = p → src[k]?.any isBlank = true) (hnext : src[p]?.any isContinuation = false) :
    Placed src i ⟨.importLine, p, p + 2, host⟩ where
  after := hi
  le := Nat.le_add_right _ _
  within := hw.le_size
  last k hk := isSettled_of_isInert (any_of_any isInert_of_isBlank (hblank k hk))
  next := hnext
  passive k h1 h2 := isPassive_of_inWord (hw.inside k h1 h2)

/-- the edits of a form: that of the word `le`, and those behind it -/
theorem placed_form {src : Bytes} {i base : Nat} {text : List UInt8} {form : ImportLine.Form} (hi : i + 2 ≤ base)
    (hr : Reads src base text) (hp : form.Parts text) {e : Edit} (he : e ∈ form.edits i base) :
    e = ⟨.importLine, i, i + 2, "import"⟩ ∨ Placed src i e := by
  obtain ⟨mid, p, hsub, hmid⟩ := formEdits_sublist form i base
  have hmem := hsub.subset he
  simp only [List.mem_cons, List.not_mem_nil, or_false] at hmem
  cases id hp with
  | @sideEffect name gap closed =>
    obtain ⟨rfl, rfl⟩ := hmid
    obtain ⟨hdrop, -⟩ := hr.dropped hp
    rcases hmem with rfl | rfl | rfl
    · exact .inl rfl
    · exact .inr (hdrop.placed (by omega))
    · refine .inr (placed_close (by omega) hdrop.word.le_size ?_ hdrop.ends)
      intro k hk
      have hlt := hdrop.lt
      exact isSettled_of_isInert (hdrop.inert k (by omega) (by omega))
  | @bindings mark name closed hmark hbefore hfrom hafter hlt hquote htail =>
    obtain ⟨rfl, rfl⟩ := hmid
    rcases hmem with rfl | rfl | rfl
    · exact .inl rfl
    · have hend := any_eq_false_of_any inWord_of_isBlank hafter
      obtain ⟨hword, -, -⟩ := isWord_from hr hfrom (hr.not_inWord_before hmark hbefore) hend
      refine .inr (placed_word (by omega) hword ?_ ?_)
      · intro k hk
        have hblank := (hr.any hbefore).2
        rwa [show base + (mark - 1) = k by omega] at hblank
      · rw [(hr.some hfrom.1).2]
        decide
    · have hq := hr.quote (by omega) hquote
      have hlen := (hr.any hquote).1
      refine .inr (placed_close (by omega) ?_ ?_ (endsAt_of_tailAt hr (by omega) htail))
      · have := lt_size_of_any hq
        omega
      · intro k hk
        rw [show base + name - 1 = k by omega] at hq
        exact isSettled_of_isQuote hq

/-! ## Import lines -/

theorem readTo_import_rule (src : Bytes) (r : Region) (i : Nat) (b : UInt8) :
    (ImportLine.rule src r i b).readTo ≤ endOfWord src i := by
  simp only [ImportLine.rule]
  split
  · split <;> exact Nat.le_refl _
  · exact le_skipWhile inWord src i

theorem passive_of_import_rule {src : Bytes} {r : Region} {i : Nat} {b : UInt8} {k : Nat} (h1 : i < k)
    (h2 : k < (ImportLine.rule src r i b).readTo) : src[k]?.any isPassive = true :=
  isPassive_of_inWord (skipWhile_passes (Nat.le_of_lt h1) (Nat.lt_of_lt_of_le h2 (readTo_import_rule src r i b)))

/-- an import edit belongs to a live word `le`, after which nothing is open, and is made of the line of that word -/
theorem mem_import_live {src : Bytes} {e : Edit} (h : e ∈ ImportLine.edits src) :
    ∃ i, LiveWord src i (i + 2) ∧ src.extract i (i + 2) = importWord ∧ cursorAt src (i + 2) = .start ∧
      e ∈ ImportLine.lineEdits src i := by
  obtain ⟨r, i, b, hlive, hb, he⟩ :=
    mem_sweep_live (fun _ _ _ _ _ h1 h2 => passive_of_import_rule h1 h2) (synced_start src) h
  obtain ⟨hw, hx, -, rfl, heq⟩ := mem_import_rule hb he
  obtain ⟨hrest, hcode, -⟩ := liveAt_some hlive
  obtain ⟨hcur, hin⟩ := cursorAt_passive hrest hcode (Nat.le_of_lt hw.lt) fun k h1 h2 =>
    isPassive_of_inWord (hw.inside k h1 h2)
  have hregion : (cursorAt src i).region = .normal :=
    Option.some.inj ((hin i (Nat.le_refl i) hw.lt).symm.trans hlive)
  have hsusp := (nested_cursorAt src i).normal_iff.1 hregion
  refine ⟨i, ⟨hw, live_iff.2 (by simp [hlive])⟩, hx, ?_, heq ▸ he⟩
  rw [hcur]
  exact Cursor.ext hregion hsusp hrest

theorem LiveWord.respects {src : Bytes} {i j : Nat} (h : LiveWord src i j) (rule : Rule) (host : String) :
    Respects src ⟨rule, i, j, host⟩ := by
  obtain ⟨r, hr⟩ := Option.ne_none_iff_exists'.1 (live_iff.1 h.live)
  obtain ⟨hrest, hcode, -⟩ := liveAt_some hr
  refine (respects_iff (Nat.le_of_lt h.lt) ?_).2 ⟨hcode, hrest⟩
  intro k h1 h2
  exact isPassive_of_inWord (h.inside k h1 h2)

/-- behind `le`, an edit respects what is live just when the part of the line before it, scanned on its own, ends in
live code -/
theorem Placed.respects_iff {src : Bytes} {i : Nat} {e : Edit} (h : Placed src i e)
    (hstart : cursorAt src (i + 2) = .start) :
    Respects src e ↔ (Scanner.walk (src.extract (i + 2) e.start) .start).2.region.isCode = true := by
  have hcur := cursorAt_extract hstart h.after (Nat.le_trans h.le h.within) (fun k _ hk => h.last k hk) h.next
  rw [Respell.respects_iff h.le h.passive, InCode, hcur]
  simp

/-- **Import lines and what is live.** Every import edit is made on the line of a live word `le`. The edit of that word
takes out live bytes only. Any other edit of the line does so, and inserts in live code only, just when the part of the
line between `le` and the edit opens no comment, string or template that it does not close. -/
theorem import_respects_iff {src : Bytes} {e : Edit} (h : e ∈ ImportLine.edits src) :
    ∃ i, LiveWord src i (i + 2) ∧ src.extract i (i + 2) = importWord ∧
      (∀ k, i ≤ k → k < e.stop → src[k]?.any isLineEnd = false) ∧
      ((e = ⟨.importLine, i, i + 2, "import"⟩ ∧ Respects src e) ∨
        (i + 2 ≤ e.start ∧
          (Respects src e ↔ (Scanner.walk (src.extract (i + 2) e.start) .start).2.region.isCode = true))) := by
  obtain ⟨i, hw, hx, hstart, he⟩ := mem_import_live h
  refine ⟨i, hw, hx, ?_, ?_⟩
  · intro k h1 h2
    by_cases hk : k < i + 2
    · exact any_eq_false_of_any isLineEnd_of_inWord (hw.inside k h1 hk)
    · have hle := ((lineEdits_line hw.toIsWord hx).range e he).2
      exact any_eq_false_of_any (by simp) (skipWhile_passes (Nat.le_of_not_lt hk) (Nat.lt_of_lt_of_le h2 hle))
  · rcases lineEdits_cases hw.le_size with hnil | ⟨base, text, form, hi, hr, hp, -, heq⟩
    · rw [hnil] at he
      cases he
    · rcases placed_form hi hr hp (heq ▸ he) with rfl | hplaced
      · exact .inl ⟨rfl, hw.respects _ _⟩
      · exact .inr ⟨hplaced.after, hplaced.respects_iff hstart⟩

/-- a template and a string between `le` and `se`, both closed: the semicolon stands in live code -/
theorem import_respects_iff_closed :
    ⟨.importLine, 17, 17, ";"⟩ ∈ ImportLine.edits (utf8 "le `a` 'b' se 'm'") ∧
      Respects (utf8 "le `a` 'b' se 'm'") ⟨.importLine, 17, 17, ";"⟩ := by
  have hnext : Scanner.nextLive (utf8 "le `a` 'b' se 'm'") .start = (some 0, ⟨1, .normal, []⟩) := by cbv
  have hmem : ⟨.importLine, 17, 17, ";"⟩ ∈ ImportLine.edits (utf8 "le `a` 'b' se 'm'") :=
    mem_sweep_first hnext (by cbv) (List.mem_of_elem_eq_true (by cbv))
  have honce : ∀ i < 17, (utf8 "le `a` 'b' se 'm'").extract i (i + 2) = importWord → i = 0 := by decide +kernel
  have hend : (Scanner.walk ((utf8 "le `a` 'b' se 'm'").extract 2 17) .start).2.region = .normal :=
    (congrArg Cursor.region (walk_end _)).symm.trans (by decide +kernel)
  obtain ⟨i, hw, hx, -, ⟨he, -⟩ | ⟨hle, hiff⟩⟩ := import_respects_iff hmem
  · simp at he
  · obtain rfl := honce i (Nat.lt_of_lt_of_le (Nat.lt_add_of_pos_right Nat.two_pos) hle) hx
    exact ⟨hmem, hiff.2 (congrArg Region.isCode hend)⟩

/-- a comment that is opened behind `le`: the word `se` in it is spelled anew, and a semicolon is put into it -/
theorem import_in_comment :
    (⟨.importLine, 6, 8, "from"⟩ ∈ ImportLine.edits (utf8 "le /* se 'm' // */") ∧
      ¬ Live (utf8 "le /* se 'm' // */") 6) ∧
    (⟨.importLine, 12, 12, ";"⟩ ∈ ImportLine.edits (utf8 "le /* se 'm' // */") ∧
      (cursorAt (utf8 "le /* se 'm' // */") 12).region = .blockComment) := by
  have hnext : Scanner.nextLive (utf8 "le /* se 'm' // */") .start = (some 0, ⟨1, .normal, []⟩) := by cbv
  refine ⟨⟨mem_sweep_first hnext (by cbv) (List.mem_of_elem_eq_true (by cbv)), ?_⟩,
    mem_sweep_first hnext (by cbv) (List.mem_of_elem_eq_true (by cbv)), by decide +kernel⟩
  rw [live_iff]
  decide +kernel

end Respell
