/-
Seams and offsets. What a `Seam` says of two texts is what the alignment answers: a kept byte is found where it went
(`Kept.outputOffset`), and a replaced word where its spelling begins (`PutAt.outputOffset`). Each follows from the
segment that the seam lies in, and the segments from a seam on are the last segments of the whole (`Seam.segments`).

Seams are passed one after the other, so of two edits one is carried out first (`PutAt.passed`), and an edit is carried
out at one place only (`PutAt.output_unique`).
-/
import Respell.Proofs.MapFidelity
import Respell.Proofs.Seams

namespace Respell

variable {src : Bytes} {p q : Nat} {e : Edit} {rest : List Edit}

/-! ## Segments at a seam -/

theorem layout_keeping {s : Nat} (hs : s ≤ src.size) (q p : Nat) (parts : List Piece) :
    layout src q (Piece.keeping p s ++ parts) =
      (if p < s then [⟨⟨q, q + (s - p)⟩, ⟨p, s⟩, true⟩] else []) ++ layout src (q + (s - p)) parts := by
  unfold Piece.keeping
  split
  · have hsize : (src.extract p s).size = s - p := by rw [Array.size_extract, Nat.min_eq_left hs]
    simp only [List.cons_append, List.nil_append, layout, Piece.bytes, Piece.source, Piece.verbatim, hsize]
  · next hge =>
    rw [Nat.sub_eq_zero_of_le (Nat.le_of_not_lt hge)]
    rfl

def allSegments (src : Bytes) : List Segment := layout src 0 (pieces src 0 (orderedEdits src))

/-- the segments from a seam on, beginning with the kept range in which it lies -/
theorem Seam.segments (h : Seam src p q rest) :
    ∃ p₀ q₀, p₀ ≤ p ∧ q = q₀ + (p - p₀) ∧ layout src q₀ (pieces src p₀ rest) ⊆ allSegments src := by
  induction h with
  | start => exact ⟨0, 0, Nat.le_refl 0, rfl, List.Subset.refl _⟩
  | @keep p q rest _ _ _ ih =>
    obtain ⟨p₀, q₀, hle, rfl, hsub⟩ := ih
    refine ⟨p₀, q₀, Nat.le_succ_of_le hle, ?_, hsub⟩
    rw [Nat.sub_add_comm hle, ← Nat.add_assoc]
  | @put q e rest h ih =>
    obtain ⟨p₀, q₀, hle, rfl, hsub⟩ := ih
    refine ⟨e.stop, _, Nat.le_refl _, by rw [Nat.sub_self, Nat.add_zero], ?_⟩
    intro s hs
    have hshape := h.along.shape e List.mem_cons_self
    apply hsub
    rw [pieces, layout_keeping (Nat.le_trans hshape.le hshape.stop_le)]
    exact List.mem_append_right _ (List.mem_cons_of_mem _ hs)

theorem PutAt.segment (h : PutAt src e q) :
    ⟨⟨q, q + (utf8 e.text).size⟩, ⟨e.start, e.stop⟩, false⟩ ∈ allSegments src := by
  have hshape := h.shape
  obtain ⟨rest, hs⟩ := h
  obtain ⟨p₀, q₀, -, rfl, hsub⟩ := hs.segments
  apply hsub
  rw [pieces, layout_keeping (Nat.le_trans hshape.le hshape.stop_le)]
  exact List.mem_append_right _ List.mem_cons_self

theorem Kept.segment (h : Kept src p q) :
    ∃ s ∈ allSegments src, s.verbatim = true ∧ s.source.start ≤ p ∧ p < s.source.stop ∧
      q = s.output.start + (p - s.source.start) := by
  obtain ⟨rest, hs, hlt, hrest⟩ := h
  obtain ⟨p₀, q₀, hle, rfl, hsub⟩ := hs.segments
  -- the kept range ends at the next edit, or with the text
  have hnext : ∃ stop parts, pieces src p₀ rest = Piece.keeping p₀ stop ++ parts ∧ stop ≤ src.size ∧ p < stop := by
    cases rest with
    | nil => exact ⟨src.size, [], (List.append_nil _).symm, Nat.le_refl _, hlt⟩
    | cons e rest =>
      exact ⟨e.start, _, rfl, hs.along.start_le e List.mem_cons_self, hrest e List.mem_cons_self⟩
  obtain ⟨stop, parts, hpieces, hstop, hp⟩ := hnext
  refine ⟨⟨⟨q₀, q₀ + (stop - p₀)⟩, ⟨p₀, stop⟩, true⟩, ?_, rfl, hle, hp, rfl⟩
  apply hsub
  rw [hpieces, layout_keeping hstop, if_pos (Nat.lt_of_le_of_lt hle hp)]
  exact List.mem_append_left _ List.mem_cons_self

/-! ## Offsets -/

theorem outputOffset_of_segment {s : Segment} (hs : s ∈ allSegments src) (h1 : s.source.start ≤ p)
    (h2 : p < s.source.stop) :
    (render src (orderedEdits src)).alignment.outputOffset p = some (s.carry Segment.source Segment.output p) := by
  have hpaired := paired_of_shapes (fun e he => shape_of_ordered he) (orderedEdits_stop_le src)
  rw [allSegments, ← segments_render, Array.mem_toList_iff] at hs
  exact hpaired.symm.across_of_mem hs h1 h2

/-- **A kept byte** is found where it went. -/
theorem Kept.outputOffset (h : Kept src p q) :
    (render src (orderedEdits src)).alignment.outputOffset p = some q := by
  obtain ⟨s, hs, hv, h1, h2, rfl⟩ := h.segment
  rw [outputOffset_of_segment hs h1 h2, Segment.carry, if_pos hv]

/-- **A replaced range** is found where the text of its edit begins. -/
theorem PutAt.outputOffset (h : PutAt src e q) (hlt : e.start < e.stop) :
    (render src (orderedEdits src)).alignment.outputOffset e.start = some q := by
  rw [outputOffset_of_segment h.segment (Nat.le_refl _) hlt]
  rfl

/-! ## What is kept -/

theorem Shape.covered (h : Shape src e) {k : Nat} (h1 : e.start ≤ k) (h2 : k < e.stop) :
    src[k]?.any isPassive = true ∨ src[k]? = some (ascii '=') := by
  cases h with
  | word hw => exact .inl (isPassive_of_inWord (hw.inside k h1 h2))
  | @joined i j n last hw _ hg hn =>
    left
    by_cases hj : k < j
    · exact isPassive_of_inWord (hw.inside k h1 hj)
    · by_cases hk : k < n
      · exact isPassive_of_isSpace (hg.spaces k (Nat.le_of_not_lt hj) hk)
      · exact isPassive_of_inWord (hn.inside k (Nat.le_of_not_lt hk) h2)
  | @classMark i hw _ he =>
    rcases Nat.lt_succ_iff_lt_or_eq.1 h2 with h2 | rfl
    · exact .inl (isPassive_of_inWord (hw.inside k h1 h2))
    · exact .inr he
  | @drop n m h =>
    by_cases hm : k < m
    · exact .inl (isPassive_of_isSpace (isSpace_of_isBlank (h.blank k h1 hm)))
    · exact .inl (isPassive_of_inWord (h.word.inside k (Nat.le_of_not_lt hm) h2))
  | closeDropped | close => exact absurd h1 (Nat.not_le_of_lt h2)

/-- a byte that is not of a word, no whitespace and no `=` is kept -/
theorem exists_kept {b : UInt8} (hp : src[p]? = some b) (hb : isPassive b = false) (hne : b ≠ ascii '=') :
    ∃ q, Kept src p q := by
  obtain ⟨hlt, -⟩ := Array.getElem?_eq_some_iff.1 hp
  rcases kept_or_covered hlt with hkept | ⟨e, q, hput, h1, h2⟩
  · exact hkept
  · rcases hput.shape.covered h1 h2 with hpassive | hequals
    · rw [hp, Option.any_some, hb] at hpassive
      cases hpassive
    · exact absurd (Option.some.inj (hp.symm.trans hequals)) hne

/-! ## One edit after the other -/

/-- an edit that begins before a seam, in either text, is carried out before it -/
theorem PutAt.passed {p' q' : Nat} (h : PutAt src e q) (h' : Seam src p' q' rest) (hlt : e.start < p' ∨ q < q') :
    e.stop ≤ p' ∧ q + (utf8 e.text).size ≤ q' := by
  obtain ⟨ahead, hs⟩ := h
  obtain ⟨m, hm⟩ := hs.exists_place
  obtain ⟨n, hn⟩ := h'.exists_place
  rcases Nat.lt_or_ge m n with hmn | hge
  · have hle := place_mono src (Nat.succ_le_of_lt hmn)
    rwa [place_put hm, hn] at hle
  · have hle := place_mono src hge
    rw [hm, hn] at hle
    rcases hlt with hlt | hlt
    · exact absurd hlt (Nat.not_lt_of_le hle.1)
    · exact absurd hlt (Nat.not_lt_of_le hle.2)

/-- an edit that takes something out has its text at one place -/
theorem PutAt.output_unique {q' : Nat} (h : PutAt src e q) (h' : PutAt src e q') (hlt : e.start < e.stop) : q = q' :=
  Option.some.inj ((h.outputOffset hlt).symm.trans (h'.outputOffset hlt))

/-- where the text of an edit begins, no other edit puts a text -/
theorem PutAt.edit_unique {e' : Edit} (h : PutAt src e q) (h' : PutAt src e' q) (hpos : 0 < (utf8 e.text).size)
    (hpos' : 0 < (utf8 e'.text).size) : e = e' := by
  obtain ⟨ahead, hs⟩ := h
  obtain ⟨ahead', hs'⟩ := h'
  obtain ⟨m, hm⟩ := hs.exists_place
  obtain ⟨n, hn⟩ := hs'.exists_place
  rcases Nat.lt_trichotomy m n with hlt | rfl | hgt
  · have hle := (place_mono src (Nat.succ_le_of_lt hlt)).2
    rw [place_put hm, hn] at hle
    exact absurd hle (Nat.not_le_of_lt (Nat.lt_add_of_pos_right hpos))
  · rw [hm] at hn
    exact (List.cons.inj (Place.mk.inj hn).2.2).1
  · have hle := (place_mono src (Nat.succ_le_of_lt hgt)).2
    rw [place_put hn, hm] at hle
    exact absurd hle (Nat.not_le_of_lt (Nat.lt_add_of_pos_right hpos'))

/-! ## Words that are put -/

theorem PutAt.before (h : PutAt src e q) (hw : IsWord src e.start e.stop) {k : Nat} (hk : k + 1 = q) :
    (respelled src)[k]?.any inWord = false := by
  obtain ⟨rest, hs⟩ := h
  rcases hs.prev with ⟨-, rfl⟩ | ⟨p', q', hp, hq, hkept⟩ | ⟨e', q', hput, hstop, hq⟩
  · cases hk
  · obtain rfl : k = q' := Nat.succ.inj (hk.trans hq)
    rw [hkept.get]
    exact hw.before p' hp.symm
  · -- what was put last ends where a word of the source begins, so it does not end as a word
    rcases hput.shape.right with hno | ⟨-, n, b, hsize, hb, hbw⟩
    · have hfirst := hw.first
      rw [hstop, hno] at hfirst
      cases hfirst
    · obtain rfl : k = q' + n := by omega
      rw [hput.get (hsize ▸ Nat.lt_succ_self n), hb]
      exact hbw

theorem PutAt.after (h : PutAt src e q) (hw : IsWord src e.start e.stop) :
    (respelled src)[q + (utf8 e.text).size]?.any inWord = false := by
  obtain ⟨rest, hs⟩ := h
  obtain ⟨k, hk, hin⟩ := hw.last
  exact hs.put.not_inWord hw.after hk hin

/-- **The words of a spelling** are words of the output. -/
theorem PutAt.isWord (h : PutAt src e q) (hw : IsWord src e.start e.stop) {a b : Nat} (ht : IsWord (utf8 e.text) a b) :
    IsWord (respelled src) (q + a) (q + b) ∧
      (respelled src).extract (q + a) (q + b) = (utf8 e.text).extract a b := by
  have hlt := ht.lt
  have hsize := ht.le_size
  refine ⟨⟨Nat.add_lt_add_left hlt q, ?_, ?_, ?_⟩, ?_⟩
  · intro k h1 h2
    obtain ⟨n, rfl⟩ := Nat.exists_eq_add_of_le (Nat.le_trans (Nat.le_add_right q a) h1)
    rw [h.get (by omega)]
    exact ht.inside n (by omega) (by omega)
  · intro k hk
    cases a with
    | zero => exact h.before hw hk
    | succ a =>
      obtain rfl : k = q + a := Nat.succ.inj hk
      rw [h.get (by omega)]
      exact ht.before a rfl
  · rcases Nat.eq_or_lt_of_le hsize with rfl | hb
    · exact h.after hw
    · rw [h.get hb]
      exact ht.after
  · have hwidth : ((utf8 e.text).extract a b).size = b - a := by rw [Array.size_extract, Nat.min_eq_left hsize]
    have hstop : q + b = q + a + ((utf8 e.text).extract a b).size := by omega
    rw [hstop]
    apply extract_eq
    intro k hk
    rw [Nat.add_assoc, h.get (by omega)]
    exact getElem?_of_extract rfl hk

/-! ## With a trailer -/

theorem extract_append {code trailer : Bytes} {i j : Nat} (h : j ≤ code.size) :
    (code ++ trailer).extract i j = code.extract i j := by
  rw [Array.extract_append, Nat.sub_eq_zero_of_le h, Array.extract_zero, Array.append_empty]

/-- whether a word stands at an offset is a matter of the bytes up to its end -/
theorem IsWord.congr {code code' : Bytes} {i j : Nat} (h : IsWord code i j) (hget : ∀ k ≤ j, code'[k]? = code[k]?) :
    IsWord code' i j := by
  have hlt := h.lt
  refine ⟨hlt, ?_, ?_, ?_⟩
  · intro k h1 h2
    rw [hget k (Nat.le_of_lt h2)]
    exact h.inside k h1 h2
  · intro k hk
    rw [hget k (by omega)]
    exact h.before k hk
  · rw [hget j (Nat.le_refl j)]
    exact h.after

theorem isWord_append {code trailer : Bytes} {i j : Nat} (h : j < code.size) :
    IsWord (code ++ trailer) i j ↔ IsWord code i j := by
  have hget : ∀ k ≤ j, (code ++ trailer)[k]? = code[k]? := fun k hk =>
    Array.getElem?_append_left (Nat.lt_of_le_of_lt hk h)
  exact ⟨fun hw => hw.congr fun k hk => (hget k hk).symm, fun hw => hw.congr hget⟩

end Respell
