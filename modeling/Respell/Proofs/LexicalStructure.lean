/-
Respelling keeps what is live. The output is read along with the source, edit by edit: at the end of every edit the two
cursors are the same (`Along`), and over a kept range they stay the same, byte by byte.

- What an edit takes out and what it puts in both leave the cursor's region alone and consume what it waits for
  (`Shape.cursor_stop`, `Shape.cursor_put`).
- The byte before an edit sees another byte ahead in the output than in the source, and does the same
  (`Shape.feed_cut`). The byte is a quote, or both bytes ahead are inert, or the byte itself is.

Main result, `lexical_structure`: a walk over the output yields a kept byte just when a walk over the source does, in
the same region, and the two walks end alike.
-/
import Respell.Proofs.Characters
import Respell.Proofs.Disjointness
import Respell.Proofs.Pieces

namespace Respell

open Vocabulary

/-! ## The cursor at an edit -/

theorem any_of_all {p : UInt8 → Bool} {text : Bytes} (h : text.all p = true) {k : Nat} (hk : k < text.size) :
    text[k]?.any p = true := by
  rw [Array.getElem?_eq_getElem hk]
  exact Array.all_eq_true.1 h k hk

theorem Harmless.inert {src : Bytes} {i j : Nat} (h : Harmless (src.extract i j)) (hj : j ≤ src.size) :
    i + 2 ≤ j ∧ ∀ k, i ≤ k → k < j → src[k]?.any isInert = true := by
  obtain ⟨hsize, hall⟩ := h
  rw [Array.size_extract] at hsize
  refine ⟨by omega, ?_⟩
  intro k h1 h2
  obtain ⟨m, rfl⟩ := Nat.exists_eq_add_of_le h1
  have hm : m < (src.extract i j).size := by rw [Array.size_extract]; omega
  rw [getElem?_of_extract rfl hm]
  exact any_of_all hall hm

theorem EndsAt.not_continuation {src : Bytes} {k : Nat} (h : EndsAt src k) : src[k]?.any isContinuation = false :=
  any_eq_false_of_all (by decide +kernel) h

theorem isInert_of_isBlank : ∀ b, isBlank b = true → isInert b = true := by decide +kernel

theorem not_continuation_of_isInert : ∀ b, isInert b = true → isContinuation b = false :=
  fun b hb => (isInert_special b hb).1

/-- a byte after which a part may be cut off: the byte does the same whatever is ahead -/
def isSettled (b : UInt8) : Bool := isInert b || ImportLine.isQuote b

theorem Cursor.feed_settled {c : Cursor} {b : UInt8} (hb : isSettled b = true) {ahead : Option UInt8}
    (ha : ahead.any isContinuation = false) : c.feed b ahead = c.feed b none := by
  rcases Bool.or_eq_true _ _ ▸ hb with hb | hb
  · cases hr : c.rest with
    | second => simp [feed, hr]
    | character => simp [feed, hr, ha]
    | nothing => rw [feed_inert hr hb, feed_inert hr hb]
  · exact (feed_quote (ImportLine.isQuote_iff.1 hb) ha).1

/-- nothing is left to be consumed after the quote of a module name -/
theorem rest_of_quote {src : Bytes} {p : Nat} (hp : 0 < p) (hq : src[p - 1]?.any ImportLine.isQuote = true)
    (ha : src[p]?.any isContinuation = false) : (cursorAt src p).rest = .nothing := by
  obtain ⟨k, rfl⟩ : ∃ k, p = k + 1 := ⟨p - 1, by omega⟩
  rw [Nat.add_sub_cancel] at hq
  obtain ⟨b, hb, hbq⟩ := (Option.any_eq_true _ _).1 hq
  rw [cursorAt_succ hb]
  exact (Cursor.feed_quote (ImportLine.isQuote_iff.1 hbq) ha).2

namespace Dropped

variable {src : Bytes} {n m : Nat}

theorem inert (h : Dropped src n m) : ∀ k, n ≤ k → k < m + 2 → src[k]?.any isInert = true := by
  intro k h1 h2
  by_cases hk : k < m
  · exact any_of_any isInert_of_isBlank (h.blank k h1 hk)
  · obtain ⟨x, rfl⟩ := Nat.exists_eq_add_of_le (Nat.le_of_not_lt hk)
    rw [getElem?_of_extract h.text (by change x < 2; omega)]
    have hfrom : ∀ x < 2, fromWord[x]?.any isInert = true := by decide
    exact hfrom x (by omega)

theorem not_continuation (h : Dropped src n m) : src[n]?.any isContinuation = false :=
  any_eq_false_of_any not_continuation_of_isInert (h.inert n (Nat.le_refl n) (by have := h.lt; omega))

theorem cursor_stop (h : Dropped src n m) : cursorAt src (m + 2) = { cursorAt src n with rest := .nothing } :=
  cursorAt_harmless (by have := h.lt; omega) h.inert

end Dropped

theorem classMark_inert {src : Bytes} {i : Nat} (hs : src.extract i (i + 5) = className)
    (he : src[i + 5]? = some (ascii '=')) : ∀ k, i ≤ k → k < i + 6 → src[k]?.any isInert = true := by
  intro k h1 h2
  obtain ⟨x, rfl⟩ := Nat.exists_eq_add_of_le h1
  by_cases hx : x < 5
  · rw [getElem?_of_extract hs hx]
    have hname : ∀ x < 5, className[x]?.any isInert = true := by decide
    exact hname x hx
  · obtain rfl : x = 5 := by omega
    rw [he]
    decide

/-- what an edit takes out leaves the cursor alone, but for what it waits for -/
theorem Shape.cursor_stop {src : Bytes} {e : Edit} (h : Shape src e) :
    cursorAt src e.stop = { cursorAt src e.start with rest := .nothing } := by
  cases h with
  | word hw _ hs =>
    obtain ⟨h1, h2⟩ := hs.inert hw.le_size
    exact cursorAt_harmless h1 h2
  | @joined i j n last hw helse hg hn hif =>
    obtain ⟨r, hr⟩ := Option.ne_none_iff_exists'.1 (live_iff.1 hw.live)
    obtain ⟨h1, h2, -⟩ := liveAt_some hr
    obtain ⟨hle, -, hpass⟩ := (Keyword.spelled_of_joined helse hg hn hif).passive hw.toIsWord
    simp only
    rw [(cursorAt_passive h1 h2 (Nat.le_trans (Nat.le_of_lt hw.lt) hle) hpass).1, ← h1]
  | classMark hw hs he => exact cursorAt_harmless (by simp only; omega) (classMark_inert hs he)
  | drop h => exact h.cursor_stop
  | closeDropped h => simp [h.cursor_stop]
  | close hp hq he =>
    simp only
    rw [← rest_of_quote hp hq he.not_continuation]

/-- what an edit puts in: two inert bytes or more, or inert bytes where the cursor waits for nothing -/
theorem Shape.text {src : Bytes} {e : Edit} (h : Shape src e) :
    Harmless (utf8 e.text) ∨ ((utf8 e.text).all isInert = true ∧ (cursorAt src e.start).rest = .nothing) := by
  have hnone : (utf8 "").all isInert = true := by decide +kernel
  have hmark : (utf8 ";").all isInert = true := by decide +kernel
  cases h with
  | word _ _ _ hh => exact .inl hh
  | joined => exact .inl (by simp only; decide +kernel)
  | classMark => exact .inl (by simp only; decide +kernel)
  | drop h => exact .inr ⟨hnone, rest_of_quote h.pos h.quote h.not_continuation⟩
  | closeDropped h => exact .inr ⟨hmark, by simp [h.cursor_stop]⟩
  | close hp hq he => exact .inr ⟨hmark, rest_of_quote hp hq he.not_continuation⟩

theorem Shape.text_inert {src : Bytes} {e : Edit} (h : Shape src e) : (utf8 e.text).all isInert = true :=
  h.text.elim (·.2) (·.1)

/-- what an edit puts in does to the cursor what the bytes that it takes out do -/
theorem Shape.cursor_put {src code : Bytes} {e : Edit} {q : Nat} (h : Shape src e)
    (hcur : cursorAt code q = cursorAt src e.start)
    (hput : ∀ k < (utf8 e.text).size, code[q + k]? = (utf8 e.text)[k]?) :
    cursorAt code (q + (utf8 e.text).size) = cursorAt src e.stop := by
  have hinert : ∀ k, q ≤ k → k < q + (utf8 e.text).size → code[k]?.any isInert = true := by
    intro k h1 h2
    obtain ⟨x, rfl⟩ := Nat.exists_eq_add_of_le h1
    rw [hput x (by omega)]
    exact any_of_all h.text_inert (by omega)
  rw [h.cursor_stop]
  rcases h.text with ⟨h2, -⟩ | ⟨-, hrest⟩
  · calc cursorAt code (q + (utf8 e.text).size)
        = { cursorAt code q with rest := .nothing } := cursorAt_harmless (by omega) hinert
      _ = { cursorAt src e.start with rest := .nothing } := by rw [hcur]
  · calc cursorAt code (q + (utf8 e.text).size)
        = cursorAt code q := cursorAt_inert (by rw [hcur, hrest]) (by omega) hinert
      _ = { cursorAt src e.start with rest := .nothing } := by rw [hcur, ← hrest]

/-- a quote before an edit does the same whatever the edit puts ahead of it -/
theorem feed_cut_quote {src : Bytes} {p k : Nat} {b : UInt8} {ahead : Option UInt8} (hk : k + 1 = p)
    (hb : src[k]? = some b) (hq : src[p - 1]?.any ImportLine.isQuote = true)
    (hs : src[p]?.any isContinuation = false) (hc : ahead.any isContinuation = false) (c : Cursor) :
    c.feed b ahead = c.feed b src[k + 1]? := by
  subst hk
  rw [Nat.add_sub_cancel, hb] at hq
  have hquote := ImportLine.isQuote_iff.1 hq
  rw [(Cursor.feed_quote hquote hc).1, (Cursor.feed_quote hquote hs).1]

/-- inert bytes in place of inert bytes make no difference to the byte before them -/
theorem feed_cut_inert {o ahead : Option UInt8} {text : Bytes} (hs : o.any isInert = true) (hh : Harmless text)
    (ht : ∀ a, text[0]? = some a → ahead = some a) (c : Cursor) (b : UInt8) : c.feed b ahead = c.feed b o := by
  obtain ⟨a, rfl, ha⟩ := (Option.any_eq_true _ _).1 hs
  obtain ⟨a', ha', hai'⟩ := (Option.any_eq_true _ _).1 (any_of_all hh.2 (k := 0) (by have := hh.1; omega))
  rw [ht a' ha']
  exact Cursor.feed_ahead_inert hai' ha

/-- the byte before an edit does the same with what the edit puts ahead of it as with what it takes out -/
theorem Shape.feed_cut {src : Bytes} {e : Edit} (h : Shape src e) {k : Nat} (hk : k + 1 = e.start) {b : UInt8}
    (hb : src[k]? = some b) {ahead : Option UInt8} (hc : ahead.any isContinuation = false)
    (ht : ∀ a, (utf8 e.text)[0]? = some a → ahead = some a) (c : Cursor) :
    c.feed b ahead = c.feed b src[k + 1]? := by
  cases h with
  | word hw _ hs hh =>
    have hfirst := (hs.inert hw.le_size).2 _ (Nat.le_refl _) hw.lt
    exact feed_cut_inert (hk ▸ hfirst) hh ht _ b
  | joined hw helse =>
    have hfirst : src[k + 1]? = some (ascii 'w') := hk ▸ hw.getElem?_start helse
    exact feed_cut_inert (by rw [hfirst]; decide) (by decide +kernel : Harmless (utf8 "else if")) ht _ b
  | classMark hw hs he =>
    have hfirst := classMark_inert hs he _ (Nat.le_refl _) (by omega)
    exact feed_cut_inert (hk ▸ hfirst) (by decide +kernel : Harmless (utf8 hostClassMark)) ht _ b
  | drop h => exact feed_cut_quote hk hb h.quote h.not_continuation hc _
  | @closeDropped n m h =>
    -- the byte before is the last of `se`
    have hlt := h.lt
    obtain rfl : k = m + 1 := by simp only at hk; omega
    have hin := h.inert (m + 1) (by omega) (by omega)
    rw [hb] at hin
    rw [Cursor.feed_settled (Bool.or_inl hin) hc, Cursor.feed_settled (Bool.or_inl hin) h.ends.not_continuation]
  | close _ hq he => exact feed_cut_quote hk hb hq he.not_continuation hc _

theorem Shape.stop_le {src : Bytes} {e : Edit} (h : Shape src e) : e.stop ≤ src.size := by
  cases h with
  | word hw => exact hw.le_size
  | joined _ _ _ hn => exact hn.le_size
  | classMark _ _ he =>
    obtain ⟨hlt, -⟩ := Array.getElem?_eq_some_iff.1 he
    exact hlt
  | drop h | closeDropped h => exact h.word.le_size
  | close hp hq =>
    have := lt_size_of_any hq
    simp only
    omega

/-! ## The output, piece by piece -/

theorem head?_extract_append (src : Bytes) (p s : Nat) (rest : List UInt8) :
    ((src.extract p s).toList ++ rest).head? = if p < min s src.size then src[p]? else rest.head? := by
  split
  · next h =>
    rw [List.head?_append, List.head?_eq_getElem?, Array.getElem?_toList, Array.getElem?_extract, if_pos (by omega)]
    simp [show p < src.size by omega]
  · next h =>
    rw [Array.extract_eq_empty_of_le (by omega)]
    simp

/-- a deletion leaves no byte behind it that goes on a character -/
theorem Shape.not_continuation_of_text {src : Bytes} {e : Edit} (h : Shape src e) (ht : (utf8 e.text).size = 0) :
    src[e.stop]?.any isContinuation = false := by
  cases h with
  | word _ _ _ hh => have := hh.1; simp only at ht; omega
  | joined | classMark | closeDropped | close => exact absurd ht (by simp only; decide +kernel)
  | drop h => exact h.ends.not_continuation

theorem head?_text_append {text : Bytes} (h : text.size ≠ 0) (rest : List UInt8) :
    (text.toList ++ rest).head? = text[0]? := by
  rw [List.head?_append, List.head?_eq_getElem?, Array.getElem?_toList]
  simp [show 0 < text.size by omega]

theorem head?_put {src : Bytes} {e : Edit} (h : Shape src e) {rest : List UInt8}
    (hr : src[e.stop]?.any isContinuation = false → rest.head?.any isContinuation = false) :
    ((utf8 e.text).toList ++ rest).head?.any isContinuation = false := by
  by_cases ht : (utf8 e.text).size = 0
  · rw [Array.eq_empty_of_size_eq_zero ht]
    exact hr (h.not_continuation_of_text ht)
  · rw [head?_text_append ht]
    exact any_eq_false_of_any not_continuation_of_isInert (any_of_all h.text_inert (by omega))

/-- what is written from an edit on does not begin inside a character -/
theorem head?_written {src : Bytes} {e : Edit} {rest : List Edit} (h : ∀ x ∈ e :: rest, Shape src x) :
    ((utf8 e.text).toList ++ written src (pieces src e.stop rest)).head?.any isContinuation = false := by
  induction rest generalizing e with
  | nil =>
    refine head?_put (h e List.mem_cons_self) ?_
    intro hstop
    rw [written_pieces_nil, ← List.append_nil (src.extract _ _).toList, head?_extract_append]
    split
    · exact hstop
    · rfl
  | cons e' rest ih =>
    refine head?_put (h e List.mem_cons_self) ?_
    intro hstop
    rw [written_pieces_cons, head?_extract_append]
    split
    · exact hstop
    · apply ih
      intro x hx
      exact h x (List.mem_cons_of_mem e hx)

/-! ## Along the two texts -/

/-- over a kept range the cursors stay the same, if the last byte does the same with what is ahead in either text -/
theorem cursorAt_kept {src code : Bytes} {p q s : Nat} (hs : s ≤ src.size) (hcur : cursorAt code q = cursorAt src p)
    (hkeep : ∀ i < s - p, code[q + i]? = src[p + i]?)
    (hcut : ∀ k b, p ≤ k → k + 1 = s → src[k]? = some b →
      (cursorAt src k).feed b code[q + (s - p)]? = (cursorAt src k).feed b src[k + 1]?) :
    (∀ i ≤ s - p, cursorAt code (q + i) = cursorAt src (p + i)) ∧
      ∀ i < s - p, liveAt code (q + i) = liveAt src (p + i) := by
  have hfeed : ∀ i < s - p, ∃ b, code[q + i]? = some b ∧ src[p + i]? = some b ∧
      (cursorAt src (p + i)).feed b code[q + i + 1]? = (cursorAt src (p + i)).feed b src[p + i + 1]? := by
    intro i hi
    have hb : src[p + i]? = some src[p + i] := by simp [show p + i < src.size by omega]
    refine ⟨src[p + i], by rw [hkeep i hi, hb], hb, ?_⟩
    by_cases hlast : i + 1 < s - p
    · rw [Nat.add_assoc q, hkeep (i + 1) hlast, Nat.add_assoc p]
    · rw [show q + i + 1 = q + (s - p) by omega]
      exact hcut (p + i) _ (by omega) (by omega) hb
  have hall : ∀ i ≤ s - p, cursorAt code (q + i) = cursorAt src (p + i) := by
    intro i hi
    induction i with
    | zero => exact hcur
    | succ i ih =>
      obtain ⟨b, hb, hb', hf⟩ := hfeed i hi
      rw [← Nat.add_assoc, ← Nat.add_assoc, cursorAt_succ hb, cursorAt_succ hb', ih (Nat.le_of_succ_le hi), hf]
  refine ⟨hall, ?_⟩
  intro i hi
  obtain ⟨b, hb, hb', hf⟩ := hfeed i hi
  rw [liveAt_of_feed hb, liveAt_of_feed hb', hall i (Nat.le_of_lt hi), hf]

/-- the output from `q` on is what `edits` make of the source from `p` on, and both are read up to there alike -/
structure Along (src code : Bytes) (p q : Nat) (edits : List Edit) : Prop where
  shape : ∀ e ∈ edits, Shape src e
  order : edits.Pairwise fun a b => a.stop ≤ b.start
  start : ∀ e ∈ edits, p ≤ e.start
  le : p ≤ src.size
  within : q ≤ code.size
  text : code.toList.drop q = written src (pieces src p edits)
  cursor : cursorAt code q = cursorAt src p

theorem kept_of_drop {src code : Bytes} {p q s : Nat} {rest : List UInt8} (hq : q ≤ code.size) (hs : s ≤ src.size)
    (h : code.toList.drop q = (src.extract p s).toList ++ rest) :
    code.toList.drop (q + (s - p)) = rest ∧ q + (s - p) ≤ code.size ∧ ∀ i < s - p, code[q + i]? = src[p + i]? := by
  have hlen : (src.extract p s).toList.length = s - p := by
    rw [Array.length_toList, Array.size_extract]
    omega
  refine ⟨hlen ▸ drop_add_of_drop h, ?_, ?_⟩
  · have := congrArg List.length h
    rw [List.length_drop, List.length_append, Array.length_toList, hlen] at this
    omega
  · intro i hi
    rw [getElem?_append_of_drop h (by omega), Array.getElem?_toList, Array.getElem?_extract, if_pos (by omega)]

/-- **One edit.** Up to the edit the two texts are live alike, and after it they are read alike again. -/
theorem along_put {src code : Bytes} {p q : Nat} {e : Edit} {rest : List Edit} (h : Along src code p q (e :: rest)) :
    Along src code e.stop (q + (e.start - p) + (utf8 e.text).size) rest ∧
      ∀ i < e.start - p, liveAt code (q + i) = liveAt src (p + i) := by
  have he := h.shape e List.mem_cons_self
  have htext := h.text
  rw [written_pieces_cons] at htext
  obtain ⟨hafter, hwithin, hkeep⟩ := kept_of_drop h.within (Nat.le_trans he.le he.stop_le) htext
  have hahead := getElem?_head? hafter
  have hfirst : ∀ a, (utf8 e.text)[0]? = some a → code[q + (e.start - p)]? = some a := by
    intro a ha
    obtain ⟨hlt, -⟩ := Array.getElem?_eq_some_iff.1 ha
    rw [hahead, head?_text_append (by omega), ha]
  obtain ⟨hcur, hlive⟩ := cursorAt_kept (Nat.le_trans he.le he.stop_le) h.cursor hkeep fun k b _ hk hb =>
    he.feed_cut hk hb (by rw [hahead]; exact head?_written h.shape) hfirst _
  have hput := fun k (hk : k < (utf8 e.text).size) => getElem?_append_of_drop hafter (k := k) hk
  have hwritten := congrArg List.length hafter
  rw [List.length_drop, List.length_append, Array.length_toList, Array.length_toList] at hwritten
  refine ⟨⟨fun x hx => h.shape x (List.mem_cons_of_mem e hx), h.order.of_cons,
    fun x hx => List.rel_of_pairwise_cons h.order hx, he.stop_le, by omega, drop_add_of_drop hafter, ?_⟩, hlive⟩
  refine he.cursor_put ?_ fun k hk => (hput k hk).trans Array.getElem?_toList
  calc cursorAt code (q + (e.start - p))
      = cursorAt src (p + (e.start - p)) := hcur _ (Nat.le_refl _)
    _ = cursorAt src e.start := by rw [Nat.add_sub_cancel' (h.start e List.mem_cons_self)]

/-- **After the last edit.** The two texts are live alike to their ends. -/
theorem along_end {src code : Bytes} {p q : Nat} (h : Along src code p q []) :
    cursorAt code code.size = cursorAt src src.size ∧
      ∀ i < src.size - p, liveAt code (q + i) = liveAt src (p + i) := by
  have htext := h.text
  rw [written_pieces_nil, ← List.append_nil (src.extract _ _).toList] at htext
  obtain ⟨hafter, hwithin, hkeep⟩ := kept_of_drop h.within (Nat.le_refl _) htext
  have hsize : code.size = q + (src.size - p) := by
    have := congrArg List.length hafter
    rw [List.length_drop, Array.length_toList, List.length_nil] at this
    omega
  obtain ⟨hcur, hlive⟩ := cursorAt_kept (Nat.le_refl _) h.cursor hkeep fun k b _ hk hb => by
    rw [hk, ← hsize]
    simp
  refine ⟨?_, hlive⟩
  calc cursorAt code code.size
      = cursorAt code (q + (src.size - p)) := by rw [hsize]
    _ = cursorAt src (p + (src.size - p)) := hcur _ (Nat.le_refl _)
    _ = cursorAt src src.size := by rw [Nat.add_sub_cancel' h.le]

/-! ## Segments -/

/-- a kept range is one verbatim segment, if it holds a byte -/
theorem mem_layout_keeping {src : Bytes} {q p s : Nat} {parts : List Piece} {seg : Segment} (hs : s ≤ src.size)
    (h : seg ∈ layout src q (Piece.keeping p s ++ parts)) :
    seg = ⟨⟨q, q + (s - p)⟩, ⟨p, s⟩, true⟩ ∨ seg ∈ layout src (q + (s - p)) parts := by
  unfold Piece.keeping at h
  split at h
  · have hsize : (src.extract p s).size = s - p := by
      rw [Array.size_extract]
      omega
    simpa [layout, Piece.bytes, Piece.source, Piece.verbatim, hsize] using h
  · next hlt =>
    rw [show s - p = 0 by omega]
    exact .inr h

def LiveAlike (src code : Bytes) (seg : Segment) : Prop :=
  ∀ i < seg.output.stop - seg.output.start, liveAt code (seg.output.start + i) = liveAt src (seg.source.start + i)

/-- **All edits.** The two texts are live alike on every verbatim segment, and their ends are read alike. -/
theorem along_layout {src code : Bytes} {p q : Nat} {edits : List Edit} (h : Along src code p q edits) :
    (∀ seg ∈ layout src q (pieces src p edits), seg.verbatim = true → LiveAlike src code seg) ∧
      cursorAt code code.size = cursorAt src src.size := by
  induction edits generalizing p q with
  | nil =>
    obtain ⟨hend, hlive⟩ := along_end h
    refine ⟨?_, hend⟩
    intro seg hseg _
    rw [pieces, ← List.append_nil (Piece.keeping _ _)] at hseg
    rcases mem_layout_keeping (Nat.le_refl _) hseg with rfl | hseg
    · exact fun i hi => hlive i (by simp only at hi; omega)
    · cases hseg
  | cons e rest ih =>
    obtain ⟨hnext, hlive⟩ := along_put h
    obtain ⟨ih1, ih2⟩ := ih hnext
    have he := h.shape e List.mem_cons_self
    refine ⟨?_, ih2⟩
    intro seg hseg hv
    rcases mem_layout_keeping (Nat.le_trans he.le he.stop_le) hseg with rfl | hseg
    · exact fun i hi => hlive i (by simp only at hi; omega)
    · rcases List.mem_cons.1 hseg with rfl | hseg
      · cases hv
      · exact ih1 seg hseg hv

theorem shape_of_ordered {src : Bytes} {e : Edit} (h : e ∈ orderedEdits src) : Shape src e :=
  shape_of_mem ((Edit.inOrder_perm _).mem_iff.1 h)

theorem along_start (src : Bytes) : Along src (render src (orderedEdits src)).code 0 0 (orderedEdits src) where
  shape _ he := shape_of_ordered he
  order := orderedEdits_stop_le src
  start _ _ := Nat.zero_le _
  le := Nat.zero_le _
  within := Nat.zero_le _
  text := render_code src _
  cursor := rfl

/-- **Respelling keeps lexical structure.** Every source is respelled, and on each verbatim segment of the output a walk
over the output yields a byte just when a walk over the source yields the byte it came from, in the same region. The two
walks end in the same region, with the same regions suspended. -/
theorem lexical_structure (source : String) (filename : Option String) :
    ∃ out, respell source ⟨filename, false⟩ = .ok out ∧
      (∀ seg ∈ out.alignment.segments, seg.verbatim = true →
        ∀ i < seg.output.stop - seg.output.start, ∀ r,
          (seg.output.start + i, r) ∈ (Scanner.walk out.code .start).1 ↔
            (seg.source.start + i, r) ∈ (Scanner.walk (utf8 source) .start).1) ∧
      (Scanner.walk out.code .start).2.region = (Scanner.walk (utf8 source) .start).2.region ∧
      (Scanner.walk out.code .start).2.suspended = (Scanner.walk (utf8 source) .start).2.suspended := by
  obtain ⟨hseg, hend⟩ := along_layout (along_start (utf8 source))
  refine ⟨_, by simp only [respell, applyEdits_allEdits]; rfl, ?_⟩
  simp only [Bool.false_eq_true, if_false, Array.append_empty]
  constructor
  · intro seg hmem hv i hi r
    have hmem : seg ∈ layout (utf8 source) 0 (pieces (utf8 source) 0 (orderedEdits (utf8 source))) :=
      List.mem_toArray.1 hmem
    rw [mem_walk, mem_walk, hseg seg hmem hv i hi]
  · rw [walk_end, walk_end, Cursor.mk.injEq] at hend
    exact ⟨hend.1, hend.2.1⟩

end Respell
