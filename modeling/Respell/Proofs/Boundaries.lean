/-
Edits cut a text between characters. An offset of a text lies between two characters just when no continuation byte
stands there (`Boundary`), and then the characters of the text divide at it (`Boundary.split`).

Main result, `Shape.boundary`: every edit of a text that spells characters begins and ends between two of them. So
what is kept between edits spells characters again (`chars_pieces`), and so does the whole output.
-/
import Respell.Proofs.LexicalStructure

namespace Respell

open Vocabulary

/-! ## Texts that spell characters -/

/-- the bytes of a string are those of its characters -/
theorem utf8_toList (s : String) : (utf8 s).toList = s.toList.flatMap encode := by
  have hs : s.toByteArray = (s.toList.flatMap encode).toByteArray := by
    rw [← List.utf8Encode, ← String.toByteArray_ofList, String.ofList_toList]
  rw [utf8, String.toUTF8_eq_toByteArray, hs, List.data_toByteArray]

theorem utf8_append (s t : String) : utf8 (s ++ t) = utf8 s ++ utf8 t := by
  apply Array.toList_inj.1
  rw [Array.toList_append, utf8_toList, utf8_toList, utf8_toList, String.toList_append, List.flatMap_append]

theorem utf8_ofList (cs : List Char) : utf8 (String.ofList cs) = (cs.flatMap encode).toArray := by
  apply Array.toList_inj.1
  rw [utf8_toList, String.toList_ofList]

theorem head?_chars (cs : List Char) : (cs.flatMap encode).head?.any isContinuation = false := by
  cases cs with
  | nil => rfl
  | cons c cs =>
    obtain ⟨b, bs, heq, hb, -⟩ := encode_eq_cons c
    rw [List.flatMap_cons, heq]
    exact hb

/-- characters divide at an offset where no continuation byte stands -/
theorem split_chars {cs : List Char} {p : Nat} (hp : p ≤ (cs.flatMap encode).length)
    (h : (cs.flatMap encode)[p]?.any isContinuation = false) :
    ∃ front back, cs = front ++ back ∧ (front.flatMap encode).length = p := by
  induction cs generalizing p with
  | nil => exact ⟨[], [], rfl, (Nat.le_zero.1 hp).symm⟩
  | cons c cs ih =>
    rw [List.flatMap_cons] at hp h
    rw [List.length_append] at hp
    by_cases hlt : p < (encode c).length
    · refine ⟨[], c :: cs, rfl, ?_⟩
      -- inside the character there are continuation bytes only
      obtain ⟨b, bs, heq, -, hbs⟩ := encode_eq_cons c
      rw [List.getElem?_append_left hlt] at h
      rw [heq] at h hlt
      cases p with
      | zero => rfl
      | succ k =>
        have hk : k < bs.length := Nat.lt_of_succ_lt_succ hlt
        rw [List.getElem?_cons_succ, List.getElem?_eq_getElem hk, Option.any_some, hbs _ (List.getElem_mem hk)] at h
        cases h
    · have hle := Nat.le_of_not_lt hlt
      rw [List.getElem?_append_right hle] at h
      obtain ⟨front, back, rfl, hlen⟩ := ih (Nat.sub_le_of_le_add (Nat.add_comm _ _ ▸ hp)) h
      refine ⟨c :: front, back, rfl, ?_⟩
      rw [List.flatMap_cons, List.length_append, hlen, Nat.add_sub_cancel' hle]

/-! ## Boundaries -/

/-- the offset lies between two characters, or at an end of the text -/
def Boundary (src : Bytes) (p : Nat) : Prop := p ≤ src.size ∧ src[p]?.any isContinuation = false

section chars

variable {src : Bytes} {cs : List Char} (hsrc : src.toList = cs.flatMap encode) {p : Nat}
include hsrc

theorem Boundary.split (h : Boundary src p) : ∃ front back, cs = front ++ back ∧ (front.flatMap encode).length = p := by
  obtain ⟨hle, hnot⟩ := h
  rw [← Array.length_toList, hsrc] at hle
  rw [← Array.getElem?_toList, hsrc] at hnot
  exact split_chars hle hnot

theorem boundary_after_ascii {b : UInt8} (hb : src[p]? = some b) (hlt : b < 0x80) : Boundary src (p + 1) := by
  obtain ⟨hp, -⟩ := Array.getElem?_eq_some_iff.1 hb
  have hnot : isContinuation b = false := by
    by_contra h
    exact absurd (isContinuation_lt b (by simpa using h)).1 (UInt8.not_le.2 hlt)
  obtain ⟨front, back, rfl, hlen⟩ := Boundary.split hsrc ⟨Nat.le_of_lt hp, by rw [hb]; exact hnot⟩
  rw [List.flatMap_append] at hsrc
  have hdrop : src.toList.drop p = back.flatMap encode := by rw [hsrc, ← hlen, List.drop_left]
  refine ⟨hp, ?_⟩
  cases back with
  | nil =>
    rw [getElem?_head? hdrop] at hb
    cases hb
  | cons c back =>
    rw [List.flatMap_cons] at hdrop
    rcases encode_cases c with ⟨-, heq⟩ | ⟨-, b', bs, heq, hge, -⟩
    · rw [heq] at hdrop
      rw [getElem?_head? (drop_succ_of_drop hdrop)]
      exact head?_chars back
    · rw [heq, List.cons_append] at hdrop
      obtain rfl : b' = b := Option.some.inj ((getElem?_of_drop hdrop).symm.trans hb)
      exact absurd (UInt8.lt_of_lt_of_le hlt (by decide)) (UInt8.not_lt.2 hge)

/-- what stands between two boundaries spells characters -/
theorem chars_extract {s : Nat} (hp : Boundary src p) (hs : Boundary src s) :
    ∃ mid, (src.extract p s).toList = List.flatMap encode mid := by
  by_cases hle : p ≤ s
  · obtain ⟨front, back, rfl, hlen⟩ := hs.split hsrc
    rw [List.flatMap_append] at hsrc
    have hfront : ((front.flatMap encode)[p]?).any isContinuation = false := by
      rcases Nat.eq_or_lt_of_le hle with rfl | hlt
      · rw [List.getElem?_eq_none (Nat.le_of_eq hlen)]
        rfl
      · have := hp.2
        rwa [← Array.getElem?_toList, hsrc, List.getElem?_append_left (hlen ▸ hlt)] at this
    obtain ⟨first, mid, rfl, hfirst⟩ := split_chars (hlen ▸ hle) hfront
    refine ⟨mid, ?_⟩
    rw [Array.toList_extract, List.extract_eq_take_drop, hsrc, List.flatMap_append, List.append_assoc, ← hfirst,
      List.drop_left, List.take_left']
    rw [List.flatMap_append, List.length_append] at hlen
    omega
  · refine ⟨[], ?_⟩
    rw [Array.extract_eq_empty_of_le (by omega)]
    rfl

end chars

/-! ## Edits -/

theorem isContinuation_of_inWord : ∀ b, inWord b = false → isContinuation b = false := by decide +kernel

theorem IsWord.boundary_stop {src : Bytes} {i j : Nat} (h : IsWord src i j) : Boundary src j := by
  refine ⟨h.le_size, ?_⟩
  have hafter := h.after
  cases hb : src[j]? with
  | none => rfl
  | some b =>
    rw [hb] at hafter
    exact isContinuation_of_inWord b hafter

/-- an edit of a text that spells characters begins and ends between two of them -/
theorem Shape.boundary {src : Bytes} {cs : List Char} (hsrc : src.toList = cs.flatMap encode) {e : Edit}
    (h : Shape src e) : Boundary src e.start ∧ Boundary src e.stop := by
  refine ⟨⟨Nat.le_trans h.le h.stop_le, ?_⟩, ?_⟩
  · cases h with
    | word hw _ hs =>
      exact any_eq_false_of_any not_continuation_of_isInert ((hs.inert hw.le_size).2 _ (Nat.le_refl _) hw.lt)
    | joined hw helse =>
      rw [hw.getElem?_start helse]
      decide
    | classMark hw hs =>
      rw [hw.getElem?_start hs]
      decide
    | drop h => exact h.not_continuation
    | closeDropped h => exact h.ends.not_continuation
    | close _ _ he => exact he.not_continuation
  · cases id h with
    | word hw => exact hw.boundary_stop
    | joined _ _ _ hn => exact hn.boundary_stop
    | classMark _ _ he => exact boundary_after_ascii hsrc he (by decide)
    | drop hd | closeDropped hd => exact hd.word.boundary_stop
    | close _ _ he => exact ⟨h.stop_le, he.not_continuation⟩

/-- **Pieces spell characters**, if edits cut the text between characters only. -/
theorem chars_pieces {src : Bytes} {cs : List Char} (hsrc : src.toList = cs.flatMap encode) {p : Nat}
    {edits : List Edit} (hp : Boundary src p) (he : ∀ e ∈ edits, Boundary src e.start ∧ Boundary src e.stop) :
    ∀ part ∈ pieces src p edits, ∃ mid : List Char, (part.bytes src).toList = mid.flatMap encode := by
  have hkeeping : ∀ {p s : Nat}, Boundary src p → Boundary src s → ∀ part ∈ Piece.keeping p s,
      ∃ mid : List Char, (part.bytes src).toList = mid.flatMap encode := by
    intro p s hp hs part hpart
    unfold Piece.keeping at hpart
    split at hpart
    · rw [List.mem_singleton.1 hpart]
      exact chars_extract hsrc hp hs
    · cases hpart
  induction edits generalizing p with
  | nil => exact hkeeping hp ⟨Nat.le_refl _, by simp⟩
  | cons e rest ih =>
    obtain ⟨hstart, hstop⟩ := he e List.mem_cons_self
    intro part hpart
    rw [pieces, List.mem_append, List.mem_cons] at hpart
    rcases hpart with hpart | rfl | hpart
    · exact hkeeping hp hstart part hpart
    · exact ⟨_, utf8_toList e.text⟩
    · exact ih hstop (fun x hx => he x (List.mem_cons_of_mem e hx)) part hpart

end Respell
