/-
Alignments are faithful. The segments of an output follow one another without a gap through both texts (`Tiles`), and
so an offset of either text lies in one segment; the last segment that begins at or before the offset is that one,
although segments without bytes may begin at the same place (`segmentAt?_of_mem`).

`sourceOffset` and `outputOffset` are one function read in two directions (`across`). What holds of it is proved once,
for segments that tile both sides (`Paired`), and read off twice.

Main result, `applyEdits_faithful`: the alignment of an output with its source is total, monotone and within bounds,
keeps verbatim bytes, and is undone by going back where they lie.
-/
import Mathlib
import Respell.Proofs.Characters
import Respell.Proofs.EditOrder
import Respell.Proofs.Lines
import Respell.Proofs.Pieces

namespace Respell

/-! ## Tilings -/

/-- the spans follow one another without a gap, from `lo` up to `hi` -/
def Tiles : Nat → List Span → Nat → Prop
  | lo, [], hi => lo = hi
  | lo, s :: rest, hi => s.start = lo ∧ s.start ≤ s.stop ∧ Tiles s.stop rest hi

namespace Tiles

variable {lo hi : Nat} {spans : List Span}

theorem le (h : Tiles lo spans hi) : lo ≤ hi := by
  induction spans generalizing lo with
  | nil => exact Nat.le_of_eq h
  | cons s rest ih =>
    obtain ⟨rfl, hle, hrest⟩ := h
    exact Nat.le_trans hle (ih hrest)

theorem bounds (h : Tiles lo spans hi) : ∀ t ∈ spans, lo ≤ t.start ∧ t.start ≤ t.stop ∧ t.stop ≤ hi := by
  induction spans generalizing lo with
  | nil => simp
  | cons s rest ih =>
    obtain ⟨rfl, hle, hrest⟩ := h
    intro t ht
    rcases List.mem_cons.1 ht with rfl | ht
    · exact ⟨Nat.le_refl _, hle, hrest.le⟩
    · obtain ⟨h1, h2, h3⟩ := ih hrest t ht
      exact ⟨Nat.le_trans hle h1, h2, h3⟩

theorem around {xs ys : List Span} {s : Span} (h : Tiles lo (xs ++ s :: ys) hi) :
    (∀ t ∈ xs, t.start ≤ t.stop ∧ t.stop ≤ s.start) ∧ ∀ t ∈ ys, s.stop ≤ t.start := by
  induction xs generalizing lo with
  | nil => exact ⟨by simp, fun t ht => (h.2.2.bounds t ht).1⟩
  | cons x xs ih =>
    obtain ⟨rfl, hle, hrest⟩ := h
    obtain ⟨h1, h2⟩ := ih hrest
    refine ⟨?_, h2⟩
    intro t ht
    rcases List.mem_cons.1 ht with rfl | ht
    · exact ⟨hle, (hrest.bounds s (by simp)).1⟩
    · exact h1 t ht

theorem exists_mem (h : Tiles lo spans hi) {o : Nat} (h1 : lo ≤ o) (h2 : o < hi) :
    ∃ s ∈ spans, s.start ≤ o ∧ o < s.stop := by
  induction spans generalizing lo with
  | nil =>
    obtain rfl : lo = hi := h
    omega
  | cons s rest ih =>
    obtain ⟨rfl, hle, hrest⟩ := h
    by_cases ho : o < s.stop
    · exact ⟨s, List.mem_cons_self, h1, ho⟩
    · obtain ⟨t, ht, hin⟩ := ih hrest (Nat.le_of_not_lt ho)
      exact ⟨t, List.mem_cons_of_mem s ht, hin⟩

end Tiles

/-! ## From one side to the other -/

/-- the offset on the side `other` that belongs to an offset in the segment's range on the side `side` -/
def Segment.carry (s : Segment) (side other : Segment → Span) (offset : Nat) : Nat :=
  if s.verbatim then (other s).start + (offset - (side s).start) else (other s).start

/-- the offset on the side `other`, of length `m`, that belongs to an offset on the side `side`, of length `n` -/
def Alignment.across (a : Alignment) (side other : Segment → Span) (n m offset : Nat) : Option Nat :=
  if n < offset then none
  else if offset = n then some m
  else (a.segmentAt? side offset).map fun s => s.carry side other offset

theorem Alignment.sourceOffset_eq (a : Alignment) (offset : Nat) :
    a.sourceOffset offset = a.across Segment.output Segment.source a.outputSize a.sourceSize offset := rfl

theorem Alignment.outputOffset_eq (a : Alignment) (offset : Nat) :
    a.outputOffset offset = a.across Segment.source Segment.output a.sourceSize a.outputSize offset := rfl

/-- the segments tile both sides, and a verbatim one is as wide on either -/
structure Paired (segs : List Segment) (side other : Segment → Span) (n m : Nat) : Prop where
  tiles : Tiles 0 (segs.map side) n
  others : Tiles 0 (segs.map other) m
  width : ∀ s ∈ segs, s.verbatim = true → (side s).stop - (side s).start = (other s).stop - (other s).start

theorem Paired.symm {segs : List Segment} {side other : Segment → Span} {n m : Nat} (h : Paired segs side other n m) :
    Paired segs other side m n :=
  ⟨h.others, h.tiles, fun s hs hv => (h.width s hs hv).symm⟩

section across

variable {a : Alignment} {side other : Segment → Span} {n m o : Nat} {s : Segment}

theorem segmentAt?_of_mem {lo hi : Nat} (h : Tiles lo (a.segments.toList.map side) hi) (hs : s ∈ a.segments)
    (h1 : (side s).start ≤ o) (h2 : o < (side s).stop) : a.segmentAt? side o = some s := by
  obtain ⟨front, back, hsplit⟩ := List.append_of_mem (Array.mem_toList_iff.2 hs)
  rw [hsplit, List.map_append, List.map_cons] at h
  obtain ⟨hfront, hback⟩ := h.around
  have hparts : a.segments.toList = (front ++ [s]) ++ back := by rw [hsplit, List.append_assoc]; rfl
  have hfound : bisect (fun i => a.segments[i]?.any fun t => (side t).start ≤ o) 0 a.segments.size =
      (front ++ [s]).length := by
    apply bisect_split hparts
    · intro t ht
      rcases List.mem_append.1 ht with ht | ht
      · have := hfront (side t) (List.mem_map_of_mem ht)
        exact decide_eq_true (by omega)
      · rw [List.mem_singleton.1 ht]
        exact decide_eq_true h1
    · intro t ht
      have := hback (side t) (List.mem_map_of_mem ht)
      exact decide_eq_false (by omega)
  unfold Alignment.segmentAt?
  rw [hfound, List.length_append, List.length_singleton]
  simp only
  rw [← Array.getElem?_toList, hsplit, List.getElem?_append_right (Nat.le_refl _), Nat.sub_self]
  rfl

variable (h : Paired a.segments.toList side other n m)
include h

theorem Paired.bounds (hs : s ∈ a.segments) :
    (side s).start ≤ (side s).stop ∧ (side s).stop ≤ n ∧ (other s).start ≤ (other s).stop ∧ (other s).stop ≤ m := by
  have hs := Array.mem_toList_iff.2 hs
  obtain ⟨-, h1, h2⟩ := h.tiles.bounds (side s) (List.mem_map_of_mem hs)
  obtain ⟨-, h3, h4⟩ := h.others.bounds (other s) (List.mem_map_of_mem hs)
  exact ⟨h1, h2, h3, h4⟩

theorem Paired.across_of_mem (hs : s ∈ a.segments) (h1 : (side s).start ≤ o) (h2 : o < (side s).stop) :
    a.across side other n m o = some (s.carry side other o) := by
  have hn := (h.bounds hs).2.1
  unfold Alignment.across
  rw [if_neg (by omega), if_neg (by omega), segmentAt?_of_mem h.tiles hs h1 h2]
  rfl

theorem Paired.carry_bounds (hs : s ∈ a.segments) (h2 : o < (side s).stop) :
    (other s).start ≤ s.carry side other o ∧ s.carry side other o ≤ (other s).stop := by
  obtain ⟨h3, -, h4, -⟩ := h.bounds hs
  unfold Segment.carry
  split
  · next hv =>
    have := h.width s (Array.mem_toList_iff.2 hs) hv
    omega
  · exact ⟨Nat.le_refl _, h4⟩

theorem Paired.across_cases (ho : o ≤ n) :
    (o = n ∧ a.across side other n m o = some m) ∨
      ∃ s ∈ a.segments, (side s).start ≤ o ∧ o < (side s).stop ∧
        a.across side other n m o = some (s.carry side other o) := by
  rcases Nat.eq_or_lt_of_le ho with rfl | hlt
  · exact .inl ⟨rfl, by simp [Alignment.across]⟩
  · obtain ⟨t, ht, h1, h2⟩ := h.tiles.exists_mem (Nat.zero_le o) hlt
    obtain ⟨s, hs, rfl⟩ := List.mem_map.1 ht
    have hs := Array.mem_toList_iff.1 hs
    exact .inr ⟨s, hs, h1, h2, h.across_of_mem hs h1 h2⟩

theorem Paired.across_isSome : (a.across side other n m o).isSome = true ↔ o ≤ n := by
  constructor
  · intro hsome
    by_contra hgt
    rw [Alignment.across, if_pos (Nat.lt_of_not_le hgt)] at hsome
    cases hsome
  · intro hle
    rcases h.across_cases hle with ⟨-, heq⟩ | ⟨s, -, -, -, heq⟩ <;> rw [heq] <;> rfl

theorem Paired.across_le {p : Nat} (hp : a.across side other n m o = some p) : p ≤ m := by
  have hle : o ≤ n := h.across_isSome.1 (by rw [hp]; rfl)
  rcases h.across_cases hle with ⟨-, heq⟩ | ⟨s, hs, -, h2, heq⟩ <;> obtain rfl := Option.some.inj (heq.symm.trans hp)
  · exact Nat.le_refl _
  · exact Nat.le_trans (h.carry_bounds hs h2).2 (h.bounds hs).2.2.2

theorem Paired.across_mono {o' p p' : Nat} (hle : o ≤ o') (hp : a.across side other n m o = some p)
    (hp' : a.across side other n m o' = some p') : p ≤ p' := by
  have hn : o' ≤ n := h.across_isSome.1 (by rw [hp']; rfl)
  rcases h.across_cases hn with ⟨-, heq'⟩ | ⟨s', hs', h1', h2', heq'⟩ <;>
    obtain rfl := Option.some.inj (heq'.symm.trans hp')
  · exact h.across_le hp
  · obtain ⟨rfl, -⟩ | ⟨s, hs, h1, h2, heq⟩ := h.across_cases (Nat.le_trans hle hn)
    · have := (h.bounds hs').2.1
      omega
    obtain rfl := Option.some.inj (heq.symm.trans hp)
    obtain ⟨front, back, hsplit⟩ := List.append_of_mem (Array.mem_toList_iff.2 hs)
    have hside := h.tiles
    have hother := h.others
    rw [hsplit, List.map_append, List.map_cons] at hside hother
    -- the segment of the later offset is not before that of the earlier one
    have hmem := Array.mem_toList_iff.2 hs'
    rw [hsplit, List.mem_append, List.mem_cons] at hmem
    rcases hmem with hmem | rfl | hmem
    · have := (hside.around.1 (side s') (List.mem_map_of_mem hmem)).2
      omega
    · unfold Segment.carry
      split <;> omega
    · calc s.carry side other o
          ≤ (other s).stop := (h.carry_bounds hs h2).2
        _ ≤ (other s').start := hother.around.2 (other s') (List.mem_map_of_mem hmem)
        _ ≤ s'.carry side other o' := (h.carry_bounds hs' h2').1

/-- inside a verbatim segment the way back leads to where one came from -/
theorem Paired.across_back (hs : s ∈ a.segments) (hv : s.verbatim = true) (h1 : (side s).start ≤ o)
    (h2 : o < (side s).stop) :
    a.across side other n m o = some ((other s).start + (o - (side s).start)) ∧
      a.across other side m n ((other s).start + (o - (side s).start)) = some o := by
  have hw := h.width s (Array.mem_toList_iff.2 hs) hv
  rw [h.across_of_mem hs h1 h2, h.symm.across_of_mem hs (Nat.le_add_right _ _) (by omega)]
  simp only [Segment.carry, hv, if_true, true_and]
  congr 1
  omega

end across

/-! ## The segments of an output -/

theorem layout_source (src : Bytes) (at_ : Nat) (parts : List Piece) :
    (layout src at_ parts).map Segment.source = parts.map Piece.source := by
  induction parts generalizing at_ with
  | nil => rfl
  | cons p parts ih => rw [layout, List.map_cons, List.map_cons, ih]

theorem tiles_layout (src : Bytes) (at_ : Nat) (parts : List Piece) :
    Tiles at_ ((layout src at_ parts).map Segment.output) (at_ + (written src parts).length) := by
  induction parts generalizing at_ with
  | nil => rfl
  | cons p parts ih =>
    refine ⟨rfl, Nat.le_add_right _ _, ?_⟩
    have hlen : (written src (p :: parts)).length = (p.bytes src).size + (written src parts).length := by
      simp [written]
    rw [hlen, ← Nat.add_assoc]
    exact ih _

theorem tiles_keeping {p s hi : Nat} {parts : List Piece} (hp : p ≤ s)
    (h : Tiles s (parts.map Piece.source) hi) : Tiles p ((Piece.keeping p s ++ parts).map Piece.source) hi := by
  unfold Piece.keeping
  split
  · exact ⟨rfl, hp, h⟩
  · obtain rfl : p = s := by omega
    exact h

/-- edits that stand in line cut the whole source into pieces -/
theorem tiles_pieces {src : Bytes} {p : Nat} {edits : List Edit} (hp : p ≤ src.size) (hstart : ∀ e ∈ edits, p ≤ e.start)
    (hr : ∀ e ∈ edits, e.InRange src) (horder : edits.Pairwise fun a b => a.stop ≤ b.start) :
    Tiles p ((pieces src p edits).map Piece.source) src.size := by
  induction edits generalizing p with
  | nil =>
    rw [pieces, ← List.append_nil (Piece.keeping _ _)]
    exact tiles_keeping hp rfl
  | cons e rest ih =>
    obtain ⟨h1, h2⟩ := hr e List.mem_cons_self
    have hrest := ih h2 (fun x hx => List.rel_of_pairwise_cons horder hx)
      (fun x hx => hr x (List.mem_cons_of_mem e hx)) horder.of_cons
    exact tiles_keeping (hstart e List.mem_cons_self) ⟨rfl, h1, hrest⟩

/-- each segment is a piece, and the piece's bytes stand in its output range -/
theorem mem_layout {src code : Bytes} {at_ : Nat} {parts : List Piece} (hat : at_ ≤ code.size)
    (htext : code.toList.drop at_ = written src parts) {s : Segment} (hs : s ∈ layout src at_ parts) :
    ∃ p ∈ parts, s.source = p.source ∧ s.verbatim = p.verbatim ∧
      code.extract s.output.start s.output.stop = p.bytes src := by
  induction parts generalizing at_ with
  | nil => cases hs
  | cons p parts ih =>
    have htext : code.toList.drop at_ = (p.bytes src).toList ++ written src parts := htext
    have hlen := congrArg List.length htext
    rw [List.length_drop, List.length_append, Array.length_toList, Array.length_toList] at hlen
    rcases List.mem_cons.1 hs with rfl | hs
    · exact ⟨p, List.mem_cons_self, rfl, rfl, Array.toList_inj.1 (extract_of_drop htext)⟩
    · have hrest : code.toList.drop (at_ + (p.bytes src).size) = written src parts := drop_add_of_drop htext
      obtain ⟨q, hq, hqs⟩ := ih (by omega) hrest hs
      exact ⟨q, List.mem_cons_of_mem p hq, hqs⟩

theorem getElem?_of_extract_eq {src code : Bytes} {i j p q k : Nat} (h : code.extract i j = src.extract p q)
    (hj : i + k < j) (hq : p + k < q) (hjs : j ≤ code.size) (hqs : q ≤ src.size) : code[i + k]? = src[p + k]? := by
  have hk := congrArg (·[k]?) h
  simp only [Array.getElem?_extract] at hk
  rwa [if_pos (by omega), if_pos (by omega)] at hk

section render

variable {src : Bytes} {edits : List Edit} (hr : ∀ e ∈ edits, e.InRange src)
  (horder : edits.Pairwise fun a b => a.stop ≤ b.start)

theorem segments_render (src : Bytes) (edits : List Edit) :
    (render src edits).alignment.segments.toList = layout src 0 (pieces src 0 edits) := by
  simp [render]

theorem size_render (src : Bytes) (edits : List Edit) :
    (render src edits).code.size = (written src (pieces src 0 edits)).length := by
  rw [← render_code, Array.length_toList]

theorem render_kept {s : Segment} (hs : s ∈ (render src edits).alignment.segments) (hv : s.verbatim = true) :
    (render src edits).code.extract s.output.start s.output.stop = src.extract s.source.start s.source.stop := by
  rw [← Array.mem_toList_iff, segments_render] at hs
  obtain ⟨p, -, hsource, hverb, hbytes⟩ := mem_layout (Nat.zero_le _) (render_code src edits) hs
  rw [hbytes, hsource]
  cases p with
  | keep start stop => rfl
  | put e =>
    rw [hverb] at hv
    cases hv

include hr horder

/-- the segments of an output tile it and its source -/
theorem paired_render :
    Paired (render src edits).alignment.segments.toList Segment.output Segment.source (render src edits).code.size
      src.size := by
  have houtput : Tiles 0 ((render src edits).alignment.segments.toList.map Segment.output)
      (render src edits).code.size := by
    have := tiles_layout src 0 (pieces src 0 edits)
    rwa [Nat.zero_add, ← size_render, ← segments_render] at this
  have hsource : Tiles 0 ((render src edits).alignment.segments.toList.map Segment.source) src.size := by
    rw [segments_render, layout_source]
    exact tiles_pieces (Nat.zero_le _) (fun _ _ => Nat.zero_le _) hr horder
  refine ⟨houtput, hsource, ?_⟩
  intro s hs hv
  have hkept := congrArg Array.size (render_kept (Array.mem_toList_iff.1 hs) hv)
  have h1 := (houtput.bounds s.output (List.mem_map_of_mem hs)).2.2
  have h2 := (hsource.bounds s.source (List.mem_map_of_mem hs)).2.2
  rw [Array.size_extract, Array.size_extract] at hkept
  omega

theorem getElem?_render {s : Segment} (hs : s ∈ (render src edits).alignment.segments) (hv : s.verbatim = true)
    {k : Nat} (hk : k < s.output.stop - s.output.start) :
    (render src edits).code[s.output.start + k]? = src[s.source.start + k]? := by
  have hpaired := paired_render hr horder
  have hw := hpaired.width s (Array.mem_toList_iff.2 hs) hv
  obtain ⟨-, h1, -, h2⟩ := hpaired.bounds hs
  exact getElem?_of_extract_eq (render_kept hs hv) (by omega) (by omega) h1 h2

end render

/-! ## Faithful alignments -/

/-- what it means for an alignment to relate a source and its output faithfully -/
structure Faithful (src code : Bytes) (a : Alignment) : Prop where
  /-- the output ranges follow one another through the whole output -/
  outputs : Tiles 0 (a.segments.toList.map Segment.output) code.size
  /-- the source ranges follow one another through the whole source -/
  sources : Tiles 0 (a.segments.toList.map Segment.source) src.size
  /-- verbatim segments carry equal bytes -/
  kept : ∀ s ∈ a.segments, s.verbatim = true →
    code.extract s.output.start s.output.stop = src.extract s.source.start s.source.stop
  /-- each function answers for the offsets of its text, the end included, and for no others -/
  source_total : ∀ o, (a.sourceOffset o).isSome = true ↔ o ≤ code.size
  output_total : ∀ p, (a.outputOffset p).isSome = true ↔ p ≤ src.size
  /-- the answers are offsets of the other text, its end included -/
  source_le : ∀ o p, a.sourceOffset o = some p → p ≤ src.size
  output_le : ∀ p o, a.outputOffset p = some o → o ≤ code.size
  /-- later offsets have later answers, or the same -/
  source_mono : ∀ o o' p p', o ≤ o' → a.sourceOffset o = some p → a.sourceOffset o' = some p' → p ≤ p'
  output_mono : ∀ p p' o o', p ≤ p' → a.outputOffset p = some o → a.outputOffset p' = some o' → o ≤ o'
  /-- inside a verbatim segment each function undoes the other, and the bytes are equal -/
  source_verbatim : ∀ s ∈ a.segments, s.verbatim = true → ∀ o, s.output.start ≤ o → o < s.output.stop →
    ∃ p, s.source.start ≤ p ∧ p < s.source.stop ∧ a.sourceOffset o = some p ∧ a.outputOffset p = some o ∧
      code[o]? = src[p]?
  output_verbatim : ∀ s ∈ a.segments, s.verbatim = true → ∀ p, s.source.start ≤ p → p < s.source.stop →
    ∃ o, s.output.start ≤ o ∧ o < s.output.stop ∧ a.outputOffset p = some o ∧ a.sourceOffset o = some p ∧
      code[o]? = src[p]?
  /-- a replaced segment stands as a whole for the beginning of its other range -/
  source_replaced : ∀ s ∈ a.segments, s.verbatim = false → ∀ o, s.output.start ≤ o → o < s.output.stop →
    a.sourceOffset o = some s.source.start
  output_replaced : ∀ s ∈ a.segments, s.verbatim = false → ∀ p, s.source.start ≤ p → p < s.source.stop →
    a.outputOffset p = some s.output.start

/-- **Alignments are faithful.** Whenever edits that lie within a source are carried out, the output's alignment relates
the two texts faithfully. -/
theorem applyEdits_faithful (src : Bytes) (edits : List Edit) (hr : ∀ e ∈ edits, e.start ≤ e.stop ∧ e.stop ≤ src.size)
    (out : Rendered) (h : applyEdits src edits = .ok out) : Faithful src out.code out.alignment := by
  obtain ⟨rfl, hr', horder⟩ := applyEdits_ok hr h
  generalize Edit.inOrder edits = ordered at *
  have hpaired := paired_render hr' horder
  refine ⟨hpaired.tiles, hpaired.others, fun s => render_kept, fun o => hpaired.across_isSome, fun p =>
    hpaired.symm.across_isSome, fun o p => hpaired.across_le, fun p o => hpaired.symm.across_le,
    fun o o' p p' => hpaired.across_mono, fun p p' o o' => hpaired.symm.across_mono, ?_, ?_, ?_, ?_⟩
  · intro s hs hv o h1 h2
    have hw := hpaired.width s (Array.mem_toList_iff.2 hs) hv
    obtain ⟨hto, hback⟩ := hpaired.across_back hs hv h1 h2
    refine ⟨_, Nat.le_add_right _ _, by omega, hto, hback, ?_⟩
    have := getElem?_render hr' horder hs hv (k := o - s.output.start) (by omega)
    rwa [Nat.add_sub_cancel' h1] at this
  · intro s hs hv p h1 h2
    have hw := hpaired.width s (Array.mem_toList_iff.2 hs) hv
    obtain ⟨hto, hback⟩ := hpaired.symm.across_back hs hv h1 h2
    refine ⟨_, Nat.le_add_right _ _, by omega, hto, hback, ?_⟩
    have := getElem?_render hr' horder hs hv (k := p - s.source.start) (by omega)
    rwa [Nat.add_sub_cancel' h1] at this
  · intro s hs hv o h1 h2
    rw [Alignment.sourceOffset_eq]
    refine (hpaired.across_of_mem hs h1 h2).trans ?_
    simp [Segment.carry, hv]
  · intro s hs hv p h1 h2
    rw [Alignment.outputOffset_eq]
    refine (hpaired.symm.across_of_mem hs h1 h2).trans ?_
    simp [Segment.carry, hv]

/-- two insertions and a replacement at one place, and a deletion at the end -/
theorem applyEdits_faithful_crowded :
    ∃ out, applyEdits (utf8 "abcd")
        [⟨.attribute, 2, 4, ""⟩, ⟨.keyword, 0, 1, "X"⟩, ⟨.importLine, 0, 0, "<"⟩, ⟨.member, 0, 0, "!"⟩] = .ok out ∧
      out.code = utf8 "<!Xb" ∧ Faithful (utf8 "abcd") out.code out.alignment := by
  have hok : applyEdits (utf8 "abcd")
      [⟨.attribute, 2, 4, ""⟩, ⟨.keyword, 0, 1, "X"⟩, ⟨.importLine, 0, 0, "<"⟩, ⟨.member, 0, 0, "!"⟩] =
    .ok ⟨utf8 "<!Xb", #[⟨⟨0, 1⟩, ⟨0, 0⟩, false⟩, ⟨⟨1, 2⟩, ⟨0, 0⟩, false⟩, ⟨⟨2, 3⟩, ⟨0, 1⟩, false⟩,
      ⟨⟨3, 4⟩, ⟨1, 2⟩, true⟩, ⟨⟨4, 4⟩, ⟨2, 4⟩, false⟩], 4, 4, ⟨#[0]⟩⟩ := by
    cbv
  exact ⟨_, hok, rfl, applyEdits_faithful _ _ (by decide +kernel) _ hok⟩

end Respell
