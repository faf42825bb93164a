/-
What is left of the dialect in an output. The texts that edits put are a closed list (`hosts`), and no word in them is a
word of the dialect that the keyword rule would spell anew. What an edit did not take out is no such word either, since
the rule leaves none (`keyword_covered`, `async_covered`).

Main result, `keywords_gone`: no live word of an output is a keyword or the mark of an asynchronous function.
-/
import Respell.Proofs.Seams
import Respell.Proofs.ImportLiveness

namespace Respell

open Vocabulary

/-! ## The texts that edits put -/

/-- the texts that edits put -/
def hosts : List String :=
  (keywords ++ callees).map (·.2) ++
    ["else if", "async function", "async", "import", "from", hostClassMark, ";", ""]

theorem mem_hosts_of_fixed {text : String}
    (h : text ∈ ["else if", "async function", "async", "import", "from", hostClassMark, ";", ""]) : text ∈ hosts :=
  List.mem_append_right _ h

theorem mem_hosts_of_spells {table : Table} (h : ∀ entry ∈ table, entry.2 ∈ hosts) {word : Bytes} {host : String}
    (hs : Keyword.Spells table word host) : host ∈ hosts := by
  obtain ⟨name, hmem, -⟩ := hs
  exact h _ hmem

theorem keywords_hosts : ∀ entry ∈ keywords, entry.2 ∈ hosts := by decide

theorem callees_hosts : ∀ entry ∈ callees, entry.2 ∈ hosts := by decide

theorem members_hosts : ∀ entry ∈ members, entry.2 ∈ hosts := by decide

theorem text_of_import {src : Bytes} {e : Edit} (h : e ∈ ImportLine.edits src) :
    e.text ∈ ["import", "from", ";", ""] := by
  obtain ⟨i, hw, -, -, he⟩ := mem_import_live h
  rcases lineEdits_cases hw.le_size with hnil | ⟨base, text, form, -, -, -, -, heq⟩
  · rw [hnil] at he
    cases he
  · obtain ⟨mid, p, hsub, hmid⟩ := formEdits_sublist form i base
    have hmem := hsub.subset (heq ▸ he)
    simp only [List.mem_cons, List.not_mem_nil, or_false] at hmem
    rcases hmem with rfl | rfl | rfl
    · simp
    · cases form with
      | sideEffect => simp [hmid.1]
      | bindings => simp [hmid.1]
    · simp [Edit.insertion]

/-- **Every text that is put** is on the list. -/
theorem text_mem_hosts {src : Bytes} {e : Edit} (h : e ∈ allEdits src) : e.text ∈ hosts := by
  simp only [allEdits, List.mem_append] at h
  rcases h with ((h | h) | h) | h
  · have himport : ∀ text ∈ ["import", "from", ";", ""], text ∈ hosts := by decide
    exact himport e.text (text_of_import h)
  · obtain ⟨i, j, last, host, -, -, -, hsp, rfl⟩ := Keyword.mem_edits_iff.1 h
    cases hsp with
    | elseIf => exact mem_hosts_of_fixed (by simp)
    | asyncFunction => exact mem_hosts_of_fixed (by simp)
    | async => exact mem_hosts_of_fixed (by simp)
    | callee _ _ _ hs => exact mem_hosts_of_spells callees_hosts hs
    | keyword _ _ _ hs => exact mem_hosts_of_spells keywords_hosts hs
  · obtain ⟨r, i, b, -, -, he⟩ := mem_sweep h
    obtain ⟨x, -, rfl, -⟩ := mem_attribute_rule he
    exact mem_hosts_of_fixed (by simp)
  · obtain ⟨r, i, b, -, -, he⟩ := mem_sweep h
    obtain ⟨host, -, -, hf, rfl, -⟩ := mem_member_rule he
    exact mem_hosts_of_spells members_hosts ((Keyword.find?_eq_some_iff members_nodup).1 hf)

theorem mem_orderedEdits {src : Bytes} {e : Edit} : e ∈ orderedEdits src ↔
    e ∈ ImportLine.edits src ∨ e ∈ Keyword.edits src ∨ e ∈ Attribute.edits src ∨ e ∈ Member.edits src := by
  rw [orderedEdits, (Edit.inOrder_perm _).mem_iff]
  simp only [allEdits, List.mem_append, or_assoc]

theorem PutAt.text_mem_hosts {src : Bytes} {e : Edit} {q : Nat} (h : PutAt src e q) : e.text ∈ hosts :=
  Respell.text_mem_hosts ((Edit.inOrder_perm _).mem_iff.1 h.mem)

/-- the word from `i` up to `j` of a text that is put: none that a rule minds, but for the member of an access that
stands in the text itself, and for `class` alone -/
structure HostWord (text : Bytes) (i j : Nat) : Prop where
  keyword : ∀ entry ∈ keywords, utf8 entry.1 ≠ text.extract i j
  member : ∀ entry ∈ members, utf8 entry.1 ≠ text.extract i j
  other : text.extract i j ∉ [asyncWord, importWord, fromWord]
  callee : ∀ entry ∈ callees, utf8 entry.1 = text.extract i j → 2 ≤ i ∧ isMemberDot text (i - 1) = true
  mark : text.extract i j = className → text = className

instance (text : Bytes) (i j : Nat) : Decidable (HostWord text i j) :=
  decidable_of_iff
    ((∀ entry ∈ keywords, utf8 entry.1 ≠ text.extract i j) ∧ (∀ entry ∈ members, utf8 entry.1 ≠ text.extract i j) ∧
      text.extract i j ∉ [asyncWord, importWord, fromWord] ∧
      (∀ entry ∈ callees, utf8 entry.1 = text.extract i j → 2 ≤ i ∧ isMemberDot text (i - 1) = true) ∧
      (text.extract i j = className → text = className))
    ⟨fun ⟨h1, h2, h3, h4, h5⟩ => ⟨h1, h2, h3, h4, h5⟩, fun ⟨h1, h2, h3, h4, h5⟩ => ⟨h1, h2, h3, h4, h5⟩⟩

/-- the bytes with which a text that is put may begin -/
def opensHost (b : UInt8) : Bool := isLetter b || b == ascii ';'

/-- those with which one of two bytes or more may begin -/
def startsHost (b : UInt8) : Bool := isLetter b && b != ascii 's'

/-- the bytes with which a text that is put may end -/
def closesHost (b : UInt8) : Bool := isLetter b || b == ascii '=' || b == ascii ';'

/-- bytes that open and close neither tags, nor braces, nor values -/
def isLevel (b : UInt8) : Bool :=
  b != ascii '<' && b != ascii '>' && b != ascii '{' && b != ascii '}' && !ImportLine.isQuote b

/-- bytes that neither a walk nor the reader of a tag minds -/
def isQuiet (b : UInt8) : Bool := isInert b && isLevel b

/-- what is known of a text that is put: its words, its bytes, and its ends -/
structure HostText (text : Bytes) : Prop where
  words : ∀ i < text.size, (i = 0 ∨ text[i - 1]?.any inWord = false) → text[i]?.any inWord = true →
    HostWord text i (endOfWord text i)
  quiet : text.all isQuiet = true
  starts : 2 ≤ text.size → text[0]?.any startsHost = true
  opens : text[0]?.all opensHost = true
  closes : text[text.size - 1]?.all closesHost = true

instance (text : Bytes) : Decidable (HostText text) :=
  decidable_of_iff
    ((∀ i < text.size, (i = 0 ∨ text[i - 1]?.any inWord = false) → text[i]?.any inWord = true →
        HostWord text i (endOfWord text i)) ∧ text.all isQuiet = true ∧
      (2 ≤ text.size → text[0]?.any startsHost = true) ∧ text[0]?.all opensHost = true ∧
      text[text.size - 1]?.all closesHost = true)
    ⟨fun ⟨h1, h2, h3, h4, h5⟩ => ⟨h1, h2, h3, h4, h5⟩, fun ⟨h1, h2, h3, h4, h5⟩ => ⟨h1, h2, h3, h4, h5⟩⟩

theorem hosts_texts : ∀ host ∈ hosts, HostText (utf8 host) := by decide +kernel

theorem PutAt.hostText {src : Bytes} {e : Edit} {q : Nat} (h : PutAt src e q) : HostText (utf8 e.text) :=
  hosts_texts e.text h.text_mem_hosts

theorem PutAt.hostWord {src : Bytes} {e : Edit} {q i j : Nat} (h : PutAt src e q) (hw : IsWord (utf8 e.text) i j) :
    HostWord (utf8 e.text) i j := by
  have hbefore : i = 0 ∨ (utf8 e.text)[i - 1]?.any inWord = false := by
    rcases Nat.eq_zero_or_pos i with hzero | hpos
    · exact .inl hzero
    · exact .inr (hw.before (i - 1) (Nat.sub_add_cancel hpos))
  have hword := h.hostText.words i (Nat.lt_of_lt_of_le hw.lt hw.le_size) hbefore hw.first
  rwa [hw.endOfWord_eq] at hword

/-! ## The ends of edits -/

/-- the bytes of the source right before the end of an edit -/
def closesSource (b : UInt8) : Bool := inWord b || b == ascii '=' || ImportLine.isQuote b

theorem closesSource_of_inWord {o : Option UInt8} (h : o.any inWord = true) : o.any closesSource = true :=
  any_of_any (by simp +contextual [closesSource]) h

theorem Shape.before_stop {src : Bytes} {e : Edit} (h : Shape src e) :
    ∃ k, k + 1 = e.stop ∧ src[k]?.any closesSource = true := by
  have hword : ∀ {i j : Nat}, IsWord src i j → ∃ k, k + 1 = j ∧ src[k]?.any closesSource = true := by
    intro i j hw
    obtain ⟨k, hk, hin⟩ := hw.last
    exact ⟨k, hk, closesSource_of_inWord hin⟩
  cases h with
  | word hw => exact hword hw
  | joined _ _ _ hn => exact hword hn
  | classMark _ _ he => exact ⟨_, rfl, by rw [he]; decide⟩
  | drop h => exact hword h.word
  | closeDropped h => exact hword h.word
  | @close p hp hq => exact ⟨p - 1, Nat.sub_add_cancel hp, any_of_any (by simp +contextual [closesSource]) hq⟩

/-- an edit that puts nothing stands behind a quote and takes out a word last, and the line may end behind it -/
theorem Shape.of_text_empty {src : Bytes} {e : Edit} (h : Shape src e) (ht : (utf8 e.text).size = 0) :
    (∃ k, k + 1 = e.start ∧ src[k]?.any ImportLine.isQuote = true) ∧
      (∃ k, k + 1 = e.stop ∧ src[k]?.any inWord = true) ∧ EndsAt src e.stop := by
  cases h with
  | word _ _ _ hh =>
    rw [Harmless, ht] at hh
    exact absurd hh.1 (by decide)
  | joined => exact absurd (size_elseIf.symm.trans ht) (by decide)
  | classMark => exact absurd (size_hostClassMark.symm.trans ht) (by decide)
  | closeDropped | close =>
    rw [utf8_semicolon] at ht
    cases ht
  | @drop n m h => exact ⟨⟨n - 1, Nat.sub_add_cancel h.pos, h.quote⟩, h.word.last, h.ends⟩

section ends

variable {src : Bytes} {p q : Nat} {e : Edit} {rest : List Edit}

/-- ahead of a seam that no quote precedes is a kept byte, the beginning of a text that is put, or the end -/
theorem Seam.ahead (h : Seam src p q rest) (hprev : ∀ k, k + 1 = p → src[k]?.any ImportLine.isQuote = false) :
    Kept src p q ∨ (∃ e, PutAt src e q ∧ e.start = p ∧ (respelled src)[q]?.any opensHost = true) ∨
      (p = src.size ∧ q = (respelled src).size) := by
  rcases h.next with hkept | ⟨e, rest', rfl, rfl⟩ | ⟨-, hend⟩
  · exact .inl hkept
  · have hput : PutAt src e q := ⟨rest', h⟩
    refine .inr (.inl ⟨e, hput, rfl, ?_⟩)
    rcases Nat.eq_zero_or_pos (utf8 e.text).size with hzero | hpos
    · obtain ⟨⟨k, hk, hquote⟩, -⟩ := hput.shape.of_text_empty hzero
      rw [hprev k hk] at hquote
      cases hquote
    · have hget : (respelled src)[q]? = (utf8 e.text)[0]? := hput.get hpos
      have hopen := hput.hostText.opens
      rw [hget]
      rw [Array.getElem?_eq_getElem hpos] at hopen ⊢
      exact hopen
  · exact .inr (.inr hend)

/-- the end of a text that is put, if it is not empty -/
theorem PutAt.last (h : PutAt src e q) (hpos : 0 < (utf8 e.text).size) :
    ∃ k, k + 1 = q + (utf8 e.text).size ∧ (respelled src)[k]?.any closesHost = true := by
  obtain ⟨n, hn⟩ : ∃ n, (utf8 e.text).size = n + 1 := ⟨_, (Nat.sub_add_cancel hpos).symm⟩
  have hclose := h.hostText.closes
  have hlt : n < (utf8 e.text).size := by rw [hn]; exact Nat.lt_succ_self n
  refine ⟨q + n, by rw [hn]; rfl, ?_⟩
  rw [h.get hlt]
  rw [hn, Nat.add_sub_cancel, Array.getElem?_eq_getElem hlt] at hclose
  rw [Array.getElem?_eq_getElem hlt]
  exact hclose

/-- behind a seam is the beginning, a kept byte, or an edit, whose text ends like one if there is any -/
theorem Seam.behind (h : Seam src p q rest) :
    (p = 0 ∧ q = 0) ∨ (∃ p' q', p = p' + 1 ∧ q = q' + 1 ∧ Kept src p' q') ∨
      ((∃ k, k + 1 = p ∧ src[k]?.any closesSource = true) ∧
        ((∃ k, k + 1 = q ∧ (respelled src)[k]?.any closesHost = true) ∨ EndsAt src p)) := by
  rcases h.prev with hstart | hkept | ⟨e, q', hput, rfl, rfl⟩
  · exact .inl hstart
  · exact .inr (.inl hkept)
  · refine .inr (.inr ⟨hput.shape.before_stop, ?_⟩)
    rcases Nat.eq_zero_or_pos (utf8 e.text).size with hzero | hpos
    · exact .inr (hput.shape.of_text_empty hzero).2.2
    · exact .inl (hput.last hpos)

end ends

/-! ## Keywords -/

/-- a live mark of an asynchronous function is covered by its own edit -/
theorem async_covered {src : Bytes} {i j : Nat} (hw : LiveWord src i j) (h : src.extract i j = asyncWord) :
    ∃ host, ⟨.keyword, i, j, host⟩ ∈ Keyword.edits src := by
  have ho : src[i]?.any opensWord = true := by
    rw [hw.getElem?_start h]
    decide
  have hns : ¬ Keyword.Swallowed src i j := fun hs => absurd (h.symm.trans hs.1) (by decide)
  have helse : ¬ Keyword.IsElseIf src i j := fun he => absurd (h.symm.trans he.1) (by decide)
  by_cases hf : Keyword.NamesFunction src j
  · exact ⟨_, Keyword.mem_edits_iff.2 ⟨i, j, j, _, hw, ho, hns, .asyncFunction helse h hf, rfl⟩⟩
  · exact ⟨_, Keyword.mem_edits_iff.2 ⟨i, j, j, _, hw, ho, hns, .async helse h hf, rfl⟩⟩

/-- a live word of an output is no keyword -/
theorem keywordless {src : Bytes} {i j : Nat} (hw : LiveWord (respelled src) i j) :
    (∀ host, ¬ Keyword.Spells keywords ((respelled src).extract i j) host) ∧
      (respelled src).extract i j ≠ asyncWord := by
  rcases word_origin hw.toIsWord with ⟨p, hword, hkept, htext⟩ | ⟨e, q, n, hput, -, hword, htext⟩
  · obtain ⟨hlive, hno⟩ := liveWord_of_kept hw hword hkept
    rw [← htext]
    constructor
    · intro host hs
      obtain ⟨e, he, hin⟩ := Keyword.keyword_covered hlive hs
      exact hno e (mem_orderedEdits.2 (.inr (.inl (Keyword.mem_edits_iff.2 he)))) hin
    · intro hs
      obtain ⟨host, he⟩ := async_covered hlive hs
      exact hno _ (mem_orderedEdits.2 (.inr (.inl he))) ⟨Nat.le_refl _, Nat.le_refl _⟩
  · have hhost := hput.hostWord hword
    rw [← htext]
    constructor
    · intro host hs
      obtain ⟨name, hmem, hname⟩ := hs
      exact hhost.keyword _ hmem hname
    · intro hs
      exact hhost.other (by simp [hs])

/-- **No keyword is left.** Every source is respelled, and no live word of the output is a keyword or the mark of an
asynchronous function. -/
theorem keywords_gone (source : String) (filename : Option String) :
    ∃ out, respell source ⟨filename, false⟩ = .ok out ∧
      ∀ i j, LiveWord out.code i j →
        (∀ host, ¬ Keyword.Spells keywords (out.code.extract i j) host) ∧ out.code.extract i j ≠ asyncWord := by
  refine ⟨_, by simp only [respell, applyEdits_allEdits]; rfl, ?_⟩
  simp only [Bool.false_eq_true, if_false, Array.append_empty]
  intro i j hw
  exact keywordless hw

end Respell
