/-
Import lines of an output. A word `le` of an output is one of the source that was kept, so its line was no import line
there. What edits make of the rest of the line does not turn it into one: the blanks, the quotes and the word `se` of a
form are kept bytes, and between quotes an edit takes out no quote.

Main result, `import_edits_respelled`: an output has no import line, provided that no line which begins with `le` is
joined with the next one (`LinesKept`). `warna` and `agar` on two lines become one text on one line, so the proviso
cannot be left out.
-/
import Respell.Proofs.ImportGrammar
import Respell.Proofs.OutputTags

namespace Respell

open Vocabulary ImportLine

/-- a pair that is joined on the line of a word `le` is joined within that line -/
def LinesKept (src : Bytes) : Prop :=
  ∀ i a b n m, OpensImport src i → Fused src a b n m → i < a → SameLine src i a → SameLine src b n

variable {src : Bytes} {p q : Nat} {e : Edit} {rest : List Edit}

/-! ## Edits of other rules -/

theorem rule_of_not_import (he : e ∈ orderedEdits src) (hno : e ∉ ImportLine.edits src) : e.rule ≠ .importLine := by
  rcases mem_orderedEdits.1 he with h | h | h | h
  · exact absurd h hno
  · simp [(shape_of_keyword h).2]
  · simp [(shape_of_attribute h).2]
  · simp [(shape_of_member h).2]

/-- the bytes that such an edit takes out, but for whitespace between joined words -/
def isSpelled (b : UInt8) : Bool := inWord b || b == ascii '='

theorem isSpelled_of_inWord {o : Option UInt8} (h : o.any inWord = true) : o.any isSpelled = true :=
  any_of_any (by simp +contextual [isSpelled]) h

theorem isSpelled_special : ∀ b, isSpelled b = true → isLineEnd b = false ∧ (!isQuote b) = true := by decide +kernel

/-- an edit of a rule other than that of import lines takes out a word, or two that are joined, or an attribute name -/
theorem Shape.of_rule (h : Shape src e) (hr : e.rule ≠ .importLine) :
    e.start < e.stop ∧ 2 ≤ (utf8 e.text).size ∧ src[e.start]?.any inWord = true ∧
      ∀ k, e.start ≤ k → k < e.stop →
        src[k]?.any isSpelled = true ∨ ∃ b n m, Fused src e.start b n m ∧ b ≤ k ∧ k < n := by
  cases h with
  | word hw _ _ hh => exact ⟨hw.lt, hh.1, hw.first, fun k h1 h2 => .inl (isSpelled_of_inWord (hw.inside k h1 h2))⟩
  | @joined i j n last hw helse hg hn hif =>
    have hlt := Nat.lt_of_lt_of_le hw.lt (Nat.le_trans hg.le (Nat.le_of_lt hn.lt))
    refine ⟨hlt, by rw [size_elseIf]; decide, hw.first, ?_⟩
    intro k h1 h2
    by_cases hj : k < j
    · exact .inl (isSpelled_of_inWord (hw.inside k h1 hj))
    · by_cases hnk : k < n
      · exact .inr ⟨j, n, last, ⟨hw, helse, hg, hn, hif⟩, Nat.le_of_not_lt hj, hnk⟩
      · exact .inl (isSpelled_of_inWord (hn.inside k (Nat.le_of_not_lt hnk) h2))
  | @classMark i hw _ he =>
    refine ⟨Nat.lt_add_of_pos_right (by decide), by rw [size_hostClassMark]; decide, hw.first, ?_⟩
    intro k h1 h2
    rcases Nat.lt_succ_iff_lt_or_eq.1 h2 with hk | rfl
    · exact .inl (isSpelled_of_inWord (hw.inside k h1 hk))
    · left
      rw [he]
      decide
  | drop | closeDropped | close => exact absurd rfl hr

theorem not_startsHost_of_isBlank {b : UInt8} (h : isBlank b = true) : startsHost b = false := by
  rcases isBlank_cases h with rfl | rfl <;> decide

theorem not_startsHost_of_isQuote {b : UInt8} (h : isQuote b = true) : startsHost b = false := by
  rcases isQuote_iff.1 h with rfl | rfl <;> decide

theorem not_startsHost_of_isLineEnd {b : UInt8} (h : isLineEnd b = true) : startsHost b = false := by
  rcases isLineEnd_cases h with rfl | rfl <;> decide

/-! ## What opens a line -/

theorem not_opensLine {k : Nat} (h : src[k]?.any (fun b => !isBlank b && !isLineEnd b) = true) :
    opensLine src (k + 1) = false := by
  obtain ⟨b, hb, hno⟩ := (Option.any_eq_true _ _).1 h
  simp only [Bool.and_eq_true, Bool.not_eq_true'] at hno
  simp only [opensLine, hb, hno.1, hno.2, Bool.false_and, Bool.or_false]

/-- nothing that follows the text of an edit opens a line -/
theorem PutAt.not_opensLine (h : PutAt src e q) :
    opensLine (respelled src) (q + (utf8 e.text).size) = false := by
  have hhost : ∀ b, closesHost b = true → (!isBlank b && !isLineEnd b) = true := by decide +kernel
  have hquote : ∀ b, isQuote b = true → (!isBlank b && !isLineEnd b) = true := by
    intro b hb
    rcases isQuote_iff.1 hb with rfl | rfl <;> decide
  have hlast : ∀ {e : Edit} {q : Nat}, PutAt src e q → 0 < (utf8 e.text).size →
      opensLine (respelled src) (q + (utf8 e.text).size) = false := by
    intro e q hput hpos
    obtain ⟨k, hk, hclose⟩ := hput.last hpos
    rw [← hk]
    exact Respell.not_opensLine (any_of_any hhost hclose)
  rcases Nat.eq_zero_or_pos (utf8 e.text).size with hzero | hpos
  · -- an edit that puts nothing stands behind a quote, which is kept or closed with a semicolon
    obtain ⟨⟨k, hk, hq⟩, -⟩ := h.shape.of_text_empty hzero
    rw [hzero, Nat.add_zero]
    obtain ⟨rest, hs⟩ := h
    rcases hs.prev with ⟨h0, -⟩ | ⟨p', q', hp', rfl, hkept⟩ | ⟨e', q', hput, he', rfl⟩
    · rw [h0] at hk
      cases hk
    · obtain rfl : k = p' := Nat.succ.inj (hk.trans hp')
      rw [← hkept.get] at hq
      exact Respell.not_opensLine (any_of_any hquote hq)
    · refine hlast hput (Nat.pos_of_ne_zero fun hzero' => ?_)
      obtain ⟨-, ⟨k', hk', hword⟩, -⟩ := hput.shape.of_text_empty hzero'
      obtain rfl : k = k' := Nat.succ.inj (hk.trans (he'.trans hk'.symm))
      rw [any_eq_false_of_any inWord_of_isQuote hq] at hword
      cases hword
  · exact hlast h hpos

/-- what opens a line of the output opens one of the source -/
theorem opensLine_of_seam (h : Seam src p q rest) (ho : opensLine (respelled src) q = true) :
    opensLine src p = true := by
  induction q generalizing p rest with
  | zero =>
    rcases h.prev with ⟨rfl, -⟩ | ⟨p', q', -, hq, -⟩ | ⟨e, q', hput, rfl, hq⟩
    · rfl
    · cases hq
    · rw [hq, hput.not_opensLine] at ho
      cases ho
  | succ q ih =>
    rcases h.prev with ⟨rfl, -⟩ | ⟨p', q', rfl, hq, hkept⟩ | ⟨e, q', hput, rfl, hq⟩
    · rfl
    · obtain rfl := Nat.succ.inj hq
      obtain ⟨rest', hs, -⟩ := id hkept
      simp only [opensLine, hkept.get] at ho ⊢
      cases hb : src[p']? with
      | none => rfl
      | some b =>
        simp only [hb, Bool.or_eq_true, Bool.and_eq_true] at ho ⊢
        exact ho.imp_right fun hblank => ⟨hblank.1, ih hs hblank.2⟩
    · rw [hq, hput.not_opensLine] at ho
      cases ho

/-! ## The line of a kept `le` -/

theorem OpensImport.sameLine (h : OpensImport src p) {x : Nat} (hs : SameLine src (p + 2) x) : SameLine src p x := by
  intro k h1 h2
  by_cases hk : k < p + 2
  · exact any_eq_false_of_any isLineEnd_of_inWord (h.word.inside k h1 hk)
  · exact hs k (Nat.le_of_not_lt hk) h2

/-- the word `le` at `p` begins no import line, and its last byte is kept at `q + 1` -/
structure Unread (src : Bytes) (p q : Nat) : Prop where
  opens : OpensImport src p
  plain : ¬ IsImport (lineFrom src (p + 2))
  second : Kept src (p + 1) (q + 1)

namespace Unread

theorem not_import (h : Unread src p q) (hle : p ≤ e.start) (hsame : SameLine src p e.start) :
    e ∉ ImportLine.edits src := by
  intro he
  obtain ⟨i, hi, hmem⟩ := mem_import_iff.1 he
  obtain ⟨hshape, hrange, -⟩ := lineEdits_line hi.word hi.text
  obtain ⟨h1, h2⟩ := hrange e hmem
  have hline : SameLine src i e.start := by
    refine hi.sameLine ?_
    intro k hk1 hk2
    have hpass := skipWhile_passes hk1 (Nat.lt_of_lt_of_le hk2 (Nat.le_trans (hshape e hmem).1.le h2))
    exact any_eq_false_of_any (by simp) hpass
  have hsize : ∀ {x y : Nat}, IsWord src x y → x ≤ src.size := fun hw =>
    Nat.le_of_lt (Nat.lt_of_lt_of_le hw.lt hw.le_size)
  have hblank : ∀ {x y : Nat}, IsWord src x y → src[x]?.any isBlank = false := fun hw =>
    any_eq_false_of_any isBlank_of_inWord hw.first
  -- between two words `le` that both open a line, a line ends
  rcases Nat.lt_trichotomy i p with hlt | rfl | hgt
  · obtain ⟨k, hk1, hk2, hk3⟩ := exists_lineEnd h.opens.opens (hsize h.opens.word) hlt (hblank hi.word)
    rw [hline k hk1 (Nat.lt_of_lt_of_le hk2 hle)] at hk3
    cases hk3
  · rcases lineEdits_cases_form src i with ⟨himport, -⟩ | ⟨-, hnil⟩
    · exact h.plain himport
    · rw [hnil] at hmem
      cases hmem
  · obtain ⟨k, hk1, hk2, hk3⟩ := exists_lineEnd hi.opens (hsize hi.word) hgt (hblank h.opens.word)
    rw [hsame k hk1 (Nat.lt_of_lt_of_le hk2 h1)] at hk3
    cases hk3

/-- behind `le` an edit begins, if it ends there -/
theorem lt_start (h : Unread src p q) (he : e ∈ orderedEdits src) (hlt : p + 1 < e.stop) : p + 1 < e.start := by
  by_contra hge
  exact h.second.not_covered he ⟨Nat.le_of_not_lt hge, hlt⟩

/-- an edit on the line, with what it takes out and puts -/
theorem of_put (h : Unread src p q) {q' : Nat} (hput : PutAt src e q') (hlt : p + 1 < e.start)
    (hsame : SameLine src (p + 2) e.start) :
    e.start < e.stop ∧ (respelled src)[q']?.any startsHost = true ∧ src[e.start]?.any inWord = true ∧
      ∀ k, e.start ≤ k → k < e.stop →
        src[k]?.any isSpelled = true ∨ ∃ b n m, Fused src e.start b n m ∧ b ≤ k ∧ k < n := by
  have hno := h.not_import (Nat.le_of_succ_le (Nat.le_of_lt hlt)) (h.opens.sameLine hsame)
  obtain ⟨h1, h2, h3, h4⟩ := hput.shape.of_rule (rule_of_not_import hput.mem hno)
  refine ⟨h1, ?_, h3, h4⟩
  have hfirst := hput.hostText.starts h2
  rwa [← hput.get (k := 0) (by omega)] at hfirst

/-- **The line goes on** in the source as far as in the output. -/
theorem sameLine (h : Unread src p q) (hn : LinesKept src) {p' q' : Nat} (hs : Seam src p' q' rest)
    (hsame : SameLine (respelled src) (q + 2) q') : SameLine src (p + 2) p' := by
  induction hs with
  | start => exact fun _ _ hk => absurd hk (Nat.not_lt_zero _)
  | @keep p' q' rest hs hlt hrest ih =>
    have ih := ih fun k h1 h2 => hsame k h1 (Nat.lt_succ_of_lt h2)
    intro k h1 h2
    rcases Nat.lt_succ_iff_lt_or_eq.1 h2 with h2 | rfl
    · exact ih k h1 h2
    · have hkept : Kept src k q' := ⟨rest, hs, hlt, hrest⟩
      rw [← hkept.get]
      exact hsame q' ((h.second.lt_iff hs).1 h1) (Nat.lt_succ_self q')
  | @put q' e rest hs ih =>
    have ih := ih fun k h1 h2 => hsame k h1 (Nat.lt_of_lt_of_le h2 (Nat.le_add_right _ _))
    have hput : PutAt src e q' := ⟨rest, hs⟩
    intro k h1 h2
    by_cases hk : k < e.start
    · exact ih k h1 hk
    · have hlt := h.lt_start hput.mem (Nat.lt_of_le_of_lt (Nat.le_of_succ_le h1) h2)
      obtain ⟨-, -, -, hinside⟩ := h.of_put hput hlt ih
      rcases hinside k (Nat.le_of_not_lt hk) h2 with hspelled | ⟨b, n, m, hfused, hbk, hkn⟩
      · exact any_eq_false_of_any (fun b hb => (isSpelled_special b hb).1) hspelled
      · exact hn p _ b n m h.opens hfused (Nat.lt_of_succ_lt hlt) (h.opens.sameLine ih) k hbk hkn

end Unread

/-! ## The bytes of the line in both texts -/

/-- byte `k` of the line in the source and byte `k'` of the line in the output begin at one seam -/
structure Meets (src : Bytes) (p q k k' : Nat) : Prop where
  seam : ∃ rest, Seam src (p + 2 + k) (q + 2 + k') rest
  same : SameLine (respelled src) (q + 2) (q + 2 + k')

namespace Meets

variable {k k' : Nat}

theorem zero (h : Unread src p q) : Meets src p q 0 0 where
  seam := by
    obtain ⟨rest, hs, hlt, hrest⟩ := h.second
    exact ⟨rest, hs.keep hlt hrest⟩
  same j h1 h2 := absurd h1 (Nat.not_le_of_lt h2)

/-- a byte with which no text on the line begins is kept -/
theorem step (hm : Meets src p q k k') (h : Unread src p q) (hn : LinesKept src) {b : UInt8}
    (hb : (lineFrom (respelled src) (q + 2))[k']? = some b) (hno : startsHost b = false) :
    Kept src (p + 2 + k) (q + 2 + k') ∧ (lineFrom src (p + 2))[k]? = some b ∧ Meets src p q (k + 1) (k' + 1) := by
  obtain ⟨hget, hsame⟩ := getElem?_lineFrom.1 hb
  obtain ⟨rest, hs⟩ := hm.seam
  have hkept : Kept src (p + 2 + k) (q + 2 + k') := by
    rcases hs.next with hkept | ⟨e, rest', rfl, he⟩ | ⟨-, -, hend⟩
    · exact hkept
    · rw [← he] at hs
      have hline := h.sameLine hn hs hm.same
      obtain ⟨-, hfirst, -⟩ := h.of_put ⟨rest', hs⟩ (by omega) hline
      rw [hget, Option.any_some, hno] at hfirst
      cases hfirst
    · rw [Array.getElem?_eq_none (Nat.le_of_eq hend.symm)] at hget
      cases hget
  obtain ⟨rest', hs', hlt, hrest⟩ := id hkept
  have hnext := hs'.keep hlt hrest
  refine ⟨hkept, getElem?_lineFrom.2 ⟨by rw [← hkept.get, hget], h.sameLine hn hnext hsame⟩, ⟨rest', hnext⟩, hsame⟩

theorem stop (hm : Meets src p q k k') (h : Unread src p q) (hn : LinesKept src)
    (hb : (lineFrom (respelled src) (q + 2))[k']? = none) : (lineFrom src (p + 2))[k]? = none := by
  have hend := (lineFrom_eq_none hm.same).1 hb
  obtain ⟨rest, hs⟩ := hm.seam
  have hline := h.sameLine hn hs hm.same
  rw [lineFrom_eq_none hline]
  rcases hs.next with hkept | ⟨e, rest', rfl, he⟩ | ⟨-, hend', -⟩
  · rwa [← hkept.get]
  · rw [← he] at hs hline
    obtain ⟨-, hfirst, -⟩ := h.of_put ⟨rest', hs⟩ (by omega) hline
    rw [any_eq_false_of_all (fun _ hb => not_startsHost_of_isLineEnd hb) hend] at hfirst
    cases hfirst
  · rw [Array.getElem?_eq_none (Nat.le_of_eq hend'.symm)]
    rfl

theorem blanks (hm : Meets src p q k k') (h : Unread src p q) (hn : LinesKept src) {n : Nat}
    (hb : BlanksAt (lineFrom (respelled src) (q + 2)) k' (k' + n)) :
    BlanksAt (lineFrom src (p + 2)) k (k + n) ∧ Meets src p q (k + n) (k' + n) := by
  induction n with
  | zero => exact ⟨.refl _ k, hm⟩
  | succ n ih =>
    obtain ⟨hblank, hmeet⟩ := ih ⟨Nat.le_add_right _ _, fun j h1 h2 => hb.blank j h1 (Nat.lt_succ_of_lt h2)⟩
    obtain ⟨b, hget, hbb⟩ := (Option.any_eq_true _ _).1 (hb.blank (k' + n) (Nat.le_add_right _ _) (Nat.lt_succ_self _))
    obtain ⟨-, hsrc, hnext⟩ := hmeet.step h hn hget (not_startsHost_of_isBlank hbb)
    exact ⟨hblank.concat (by rw [hsrc]; exact hbb), hnext⟩

theorem tail (hm : Meets src p q k k') (h : Unread src p q) (hn : LinesKept src)
    (ht : TailFrom (lineFrom (respelled src) (q + 2)) k') : TailFrom (lineFrom src (p + 2)) k := by
  obtain ⟨d, hblank, hclose⟩ := ht
  obtain ⟨n, rfl⟩ := Nat.exists_eq_add_of_le hblank.le
  obtain ⟨hblank', hmeet⟩ := hm.blanks h hn hblank
  refine ⟨k + n, hblank', ?_⟩
  rcases hclose with hnone | hsemi | ⟨hslash, hsecond⟩
  · exact .inl (hmeet.stop h hn hnone)
  · exact .inr (.inl (hmeet.step h hn hsemi (by decide)).2.1)
  · obtain ⟨-, hsrc, hnext⟩ := hmeet.step h hn hslash (by decide)
    refine .inr (.inr ⟨hsrc, ?_⟩)
    rcases hsecond with hs | hs
    · exact .inl (hnext.step h hn hs (by decide)).2.1
    · exact .inr (hnext.step h hn hs (by decide)).2.1

/-- no text on a line begins like `se`, and a word goes on as it began -/
theorem fromWord (hm : Meets src p q k k') (h : Unread src p q) (hn : LinesKept src)
    (hf : FromAt (lineFrom (respelled src) (q + 2)) k') :
    FromAt (lineFrom src (p + 2)) k ∧ Meets src p q (k + 2) (k' + 2) := by
  obtain ⟨hkept, hs, hnext⟩ := hm.step h hn hf.1 (by decide)
  obtain ⟨hget, -⟩ := getElem?_lineFrom.1 hf.1
  obtain ⟨hget', hsame⟩ := getElem?_lineFrom.1 hf.2
  have hin : (respelled src)[q + 2 + k' + 1]?.any inWord = true := by
    rw [Nat.add_assoc, hget']
    decide
  obtain ⟨rest, hseam, hlt, hrest⟩ := hkept.succ (by rw [hget]; decide) hin
  have hkept' : Kept src (p + 2 + k + 1) (q + 2 + k' + 1) := ⟨rest, hseam, hlt, hrest⟩
  have hafter := hseam.keep hlt hrest
  refine ⟨⟨hs, getElem?_lineFrom.2 ⟨?_, h.sameLine hn hafter hsame⟩⟩, ⟨rest, hafter⟩, hsame⟩
  rw [← hget']
  exact hkept'.get.symm

theorem of_kept (h : Unread src p q) {x k' : Nat} (hx : Kept src x (q + 2 + k'))
    (hsame : SameLine (respelled src) (q + 2) (q + 2 + k')) : ∃ k, x = p + 2 + k ∧ Meets src p q k k' := by
  obtain ⟨rest, hs, -⟩ := hx
  have hlt : p + 1 < x := (h.second.lt_iff hs).2 (by omega)
  obtain ⟨k, rfl⟩ := Nat.exists_eq_add_of_le (Nat.succ_le_of_lt hlt)
  exact ⟨k, rfl, ⟨rest, hs⟩, hsame⟩

/-- a quote is kept, wherever it stands on the line -/
theorem quote (h : Unread src p q) {q0 : UInt8} (hq : isQuote q0 = true)
    (hget : (lineFrom (respelled src) (q + 2))[k']? = some q0) : ∃ k, Meets src p q k k' := by
  obtain ⟨hcode, hsame⟩ := getElem?_lineFrom.1 hget
  obtain ⟨hsize, -⟩ := Array.getElem?_eq_some_iff.1 hcode
  rcases origin hsize with ⟨x, hx⟩ | ⟨e, q', hput, hle, hlt⟩
  · obtain ⟨k, -, hm⟩ := of_kept h hx fun j h1 h2 => hsame j h1 (Nat.lt_succ_of_lt h2)
    exact ⟨k, hm⟩
  · obtain ⟨n, hn⟩ := Nat.exists_eq_add_of_le hle
    have hn' : n < (utf8 e.text).size := by omega
    have hquiet := any_of_all hput.hostText.quiet hn'
    rw [hn, hput.get hn'] at hcode
    rw [hcode] at hquiet
    simp [isQuiet, isLevel, hq] at hquiet

/-- a module name stands for one, since an edit in it takes out no quote -/
theorem name (hm : Meets src p q k k') (h : Unread src p q) (hn : LinesKept src) {c' : Nat}
    (hname : NameAt (lineFrom (respelled src) (q + 2)) k' c') :
    ∃ c, NameAt (lineFrom src (p + 2)) k c ∧ Meets src p q (c + 1) (c' + 1) := by
  obtain ⟨q0, hq0, hopen, hclose⟩ := hname.quotes
  have hlt' := hname.lt
  have hno := not_startsHost_of_isQuote hq0
  obtain ⟨c, hmc⟩ := quote h hq0 hclose
  obtain ⟨hkept, hsrc, hnext⟩ := hm.step h hn hopen hno
  obtain ⟨hkeptc, hsrcc, hnextc⟩ := hmc.step h hn hclose hno
  obtain ⟨restc, hseamc⟩ := hmc.seam
  refine ⟨c, ⟨?_, ⟨q0, hq0, hsrc, hsrcc⟩, ?_⟩, hnextc⟩
  · -- what stands between the quotes in the output stands for something
    obtain ⟨b, hb, -⟩ := (Option.any_eq_true _ _).1 (hname.inside (k' + 1) (Nat.lt_succ_self k') hlt')
    obtain ⟨rest, hs⟩ := hnext.seam
    rcases hs.next with hkept1 | ⟨e, rest', rfl, he⟩ | ⟨-, -, hend⟩
    · have := (hkept1.lt_iff hseamc).2 (by omega)
      omega
    · rw [← he] at hs
      obtain ⟨hpos, -⟩ := h.of_put ⟨rest', hs⟩ (by omega) (h.sameLine hn hs hnext.same)
      have := PutAt.stop_le ⟨rest', hs⟩ hseamc (by omega)
      omega
    · have hget := (getElem?_lineFrom.1 hb).1
      rw [Array.getElem?_eq_none (Nat.le_of_eq hend.symm)] at hget
      cases hget
  · intro j h1 h2
    have hline := h.sameLine hn hseamc hmc.same
    have hsize : p + 2 + j < src.size := Nat.lt_trans (Nat.add_lt_add_left h2 _) hkeptc.lt_size
    rcases kept_or_covered hsize with ⟨y, hy⟩ | ⟨e, q', hput, hle, hlt⟩
    · obtain ⟨rest, hs, -⟩ := id hy
      have hfrom : q + 2 + k' < y := (hkept.lt_iff hs).1 (Nat.add_lt_add_left h1 _)
      have hto : y < q + 2 + c' := (hy.lt_iff hseamc).1 (Nat.add_lt_add_left h2 _)
      obtain ⟨j', rfl⟩ := Nat.exists_eq_add_of_le (Nat.le_trans (Nat.le_add_right _ k') (Nat.le_of_lt hfrom))
      obtain ⟨b, hb, hbq⟩ := (Option.any_eq_true _ _).1 (hname.inside j' (by omega) (by omega))
      have hget : (lineFrom src (p + 2))[j]? = some b :=
        getElem?_lineFrom.2 ⟨by rw [← hy.get, (getElem?_lineFrom.1 hb).1], hline.mono (by omega)⟩
      rw [hget]
      exact hbq
    · have hstart := h.lt_start hput.mem (by omega)
      obtain ⟨-, -, -, hinside⟩ := h.of_put hput hstart (hline.mono (by omega))
      have hquote : src[p + 2 + j]?.any (fun b => !isQuote b) = true := by
        rcases hinside (p + 2 + j) hle hlt with hspelled | ⟨b, n, m, hfused, hbk, hkn⟩
        · exact any_of_any (fun b hb => (isSpelled_special b hb).2) hspelled
        · refine any_of_any ?_ (hfused.gap.spaces _ hbk hkn)
          intro b hb
          rcases isSpace_cases hb with rfl | rfl | rfl | rfl | rfl <;> decide
      obtain ⟨b, hb, hbq⟩ := (Option.any_eq_true _ _).1 hquote
      rw [getElem?_lineFrom.2 ⟨hb, hline.mono (by omega)⟩]
      exact hbq

/-- the blank before the word `se` of the output, and the word itself, are kept -/
theorem before_from (h : Unread src p q) {m' : Nat}
    (hbefore : (lineFrom (respelled src) (q + 2))[m']?.any isBlank = true)
    (hfrom : FromAt (lineFrom (respelled src) (q + 2)) (m' + 1))
    (hafter : (lineFrom (respelled src) (q + 2))[m' + 3]?.any inWord = false) : ∃ m, Meets src p q m m' := by
  obtain ⟨b, hb, hblank⟩ := (Option.any_eq_true _ _).1 hbefore
  obtain ⟨hget, hsame⟩ := getElem?_lineFrom.1 hb
  have hsize : q + 2 ≤ (respelled src).size := by
    obtain ⟨hlt, -⟩ := Array.getElem?_eq_some_iff.1 hget
    omega
  have hreads : Reads (respelled src) (q + 2) (lineFrom (respelled src) (q + 2)) := reads_line hsize
  obtain ⟨hw, hx, -⟩ := isWord_from hreads hfrom (hreads.not_inWord_before (Nat.succ_pos m') hbefore) hafter
  rcases word_origin hw with ⟨x, hword, hkept, -⟩ | ⟨e, q', n, hput, -, hword, htext⟩
  · obtain ⟨rest, hs, -⟩ := hkept 0 (by omega)
    rcases hs.behind with ⟨-, h0⟩ | ⟨p', q', -, hq', hk⟩ | ⟨-, ⟨k, hk, hclose⟩ | hends⟩
    · omega
    · obtain rfl : q' = q + 2 + m' := by omega
      obtain ⟨m, -, hm⟩ := of_kept h hk (hsame.mono (Nat.le_succ _))
      exact ⟨m, hm⟩
    · obtain rfl : k = q + 2 + m' := by omega
      rw [hget, Option.any_some] at hclose
      rcases isBlank_cases hblank with rfl | rfl
      · exact absurd hclose (by decide)
      · exact absurd hclose (by decide)
    · have hfirst := hword.first
      rw [show x = x + 0 from rfl, hends.not_inWord] at hfirst
      cases hfirst
  · exact absurd (by rw [htext, hx]; decide) (hput.hostWord hword).other

/-- what stands on the line before a kept byte of it stands for something -/
theorem not_blank (hm : Meets src p q k k') (h : Unread src p q) (hn : LinesKept src) {j' : Nat} (hlt : j' < k')
    {b : UInt8} (hb : (lineFrom (respelled src) (q + 2))[j']? = some b) (hblank : isBlank b = false) :
    ∃ j < k, (lineFrom src (p + 2))[j]?.any isBlank = false := by
  obtain ⟨hget, hsame⟩ := getElem?_lineFrom.1 hb
  obtain ⟨hsize, -⟩ := Array.getElem?_eq_some_iff.1 hget
  obtain ⟨rest, hs⟩ := hm.seam
  -- it is enough to know the byte of the source
  have hsrc : ∀ j, src[p + 2 + j]?.any isBlank = false → (lineFrom src (p + 2))[j]?.any isBlank = false := by
    intro j hj
    cases hl : (lineFrom src (p + 2))[j]? with
    | none => rfl
    | some b => rwa [(getElem?_lineFrom.1 hl).1] at hj
  rcases origin hsize with ⟨x, hx⟩ | ⟨e, q', hput, hle, hlt'⟩
  · obtain ⟨j, rfl, -⟩ := of_kept h hx (hsame.mono (Nat.le_succ _))
    have hj := (hx.lt_iff hs).2 (Nat.add_lt_add_left hlt _)
    refine ⟨j, Nat.lt_of_add_lt_add_left hj, hsrc j ?_⟩
    rw [← hx.get, hget]
    exact hblank
  · obtain ⟨rest', hs'⟩ := id hput
    have hstop : p + 1 < e.stop := (h.second.lt_iff hs'.put).2 (by omega)
    have hstart := h.lt_start hput.mem hstop
    have hbefore := hput.stop_le hs (by omega)
    have hline := h.sameLine hn hs hm.same
    have hle' := hput.shape.le
    obtain ⟨hpos, -, hfirst, -⟩ := h.of_put hput hstart (hline.mono (by omega))
    obtain ⟨j, hj⟩ := Nat.exists_eq_add_of_le (Nat.succ_le_of_lt hstart)
    refine ⟨j, by omega, hsrc j ?_⟩
    rw [show p + 2 + j = e.start from hj.symm]
    exact any_eq_false_of_any isBlank_of_inWord hfirst

end Meets

/-- **The line is no import line** of the output either. -/
theorem Unread.not_isImport (h : Unread src p q) (hn : LinesKept src) :
    ¬ IsImport (lineFrom (respelled src) (q + 2)) := by
  rintro ⟨base, hpos, hblank, hstop, hform⟩
  apply h.plain
  obtain ⟨hb, hm⟩ := (Meets.zero h).blanks h hn (n := base) (by rwa [Nat.zero_add])
  rw [Nat.zero_add] at hb hm
  cases hform with
  | @sideEffect c' m' hname hgap hlt hfrom htail =>
    obtain ⟨c, hname, hm⟩ := hm.name h hn hname
    obtain ⟨n, rfl⟩ := Nat.exists_eq_add_of_le hgap.le
    obtain ⟨hgap, hm⟩ := hm.blanks h hn hgap
    obtain ⟨hfrom, hm⟩ := hm.fromWord h hn hfrom
    exact ⟨base, hpos, hb, hname.not_blank, .sideEffect hname hgap (by omega) hfrom (hm.tail h hn htail)⟩
  | @bindings m' a' c' hlt hbefore hfrom hgap hspace hname htail =>
    have hafter := any_eq_false_of_any inWord_of_isBlank (hgap.blank _ (Nat.le_refl _) hspace)
    obtain ⟨m, hm⟩ := Meets.before_from h hbefore hfrom hafter
    obtain ⟨b, hget, hbb⟩ := (Option.any_eq_true _ _).1 hbefore
    obtain ⟨-, hsrc, hm1⟩ := hm.step h hn hget (not_startsHost_of_isBlank hbb)
    obtain ⟨hfrom, hm3⟩ := hm1.fromWord h hn hfrom
    obtain ⟨n, rfl⟩ := Nat.exists_eq_add_of_le hgap.le
    obtain ⟨hgap, hma⟩ := hm3.blanks h hn hgap
    obtain ⟨c, hname, hmc⟩ := hma.name h hn hname
    obtain ⟨b0, hget0⟩ : ∃ b0, (lineFrom (respelled src) (q + 2))[base]? = some b0 := by
      obtain ⟨hlen, -⟩ := List.getElem?_eq_some_iff.1 hget
      exact ⟨_, List.getElem?_eq_getElem (Nat.lt_trans hlt hlen)⟩
    rw [hget0] at hstop
    obtain ⟨j, hj, hjb⟩ := hm.not_blank h hn hlt hget0 hstop
    have hbase := Nat.lt_of_le_of_lt (blanks_le hjb) hj
    exact isImport_of_blanks (Nat.lt_of_lt_of_le hpos hb.le_blanks)
      (.bindings hbase (by rw [hsrc]; exact hbb) hfrom hgap (by omega) hname (hmc.tail h hn htail))

/-- **No import line is left**, where no line that begins with `le` is joined with the next one. -/
theorem import_edits_respelled (hn : LinesKept src) : ImportLine.edits (respelled src) = [] := by
  rw [List.eq_nil_iff_forall_not_mem]
  intro e he
  obtain ⟨i, ho, hmem⟩ := mem_import_iff.1 he
  rcases lineEdits_cases_form (respelled src) i with ⟨himport, -⟩ | ⟨-, hnil⟩
  · rcases word_origin ho.word with ⟨p, hword, hkept, htext⟩ | ⟨e', q, n, hput, -, hword, htext⟩
    · rw [Nat.add_sub_cancel_left] at hword hkept htext
      have hfirst : Kept src p i := hkept 0 (by decide)
      obtain ⟨rest, hs, -⟩ := id hfirst
      have hopens : OpensImport src p :=
        ⟨hword, htext.trans ho.text, by rw [← hfirst.live]; exact ho.live, opensLine_of_seam hs ho.opens⟩
      refine Unread.not_isImport ⟨hopens, ?_, hkept 1 (by decide)⟩ hn himport
      intro hplain
      have hedit := mem_import_iff.2 ⟨p, hopens, isImport_iff_mem.1 hplain⟩
      exact hfirst.not_covered (mem_orderedEdits.2 (.inl hedit)) ⟨Nat.le_refl p, Nat.lt_add_of_pos_right Nat.two_pos⟩
    · exact (hput.hostWord hword).other (by rw [htext, ho.text]; decide)
  · rw [hnil] at hmem
    cases hmem

end Respell
