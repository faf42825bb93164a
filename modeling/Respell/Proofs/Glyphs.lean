/-
Characters of an output, and the marks they get. `glyphs` lists the characters of a text, each with its offset and its
place among lines that end at line feeds. A segment marks a character if it is verbatim and the character lies in it, or
if the character is the first of what it puts (`Segment.marks`).

The marks of an output are made in one pass over its segments and their bytes. Main result, `ofSegments_layout`: they
are the marks of those characters that some segment marks, in order, each with the offset of the source that the
alignment finds for it by bisection.
-/
import Respell.Proofs.Places
import Respell.Proofs.Tiling

namespace Respell

/-! ## Characters -/

/-- a character of a text: its offset, and its place among lines that end at line feeds -/
structure Glyph where
  offset : Nat
  place : Location
deriving DecidableEq, Repr

def Location.next (l : Location) (c : Char) : Location :=
  if c = '\n' then ⟨l.line + 1, 0⟩ else { l with column := l.column + units c }

/-- the characters of a text that stands at `offset` and at `place` -/
def glyphs (offset : Nat) (place : Location) : List Char → List Glyph
  | [] => []
  | c :: rest => ⟨offset, place⟩ :: glyphs (offset + c.utf8Size) (place.next c) rest

theorem glyphs_append (offset : Nat) (place : Location) (xs ys : List Char) :
    glyphs offset place (xs ++ ys) =
      glyphs offset place xs ++ glyphs (offset + (xs.flatMap encode).length) (xs.foldl Location.next place) ys := by
  induction xs generalizing offset place with
  | nil => rfl
  | cons c xs ih =>
    rw [List.cons_append, glyphs, ih, glyphs, List.flatMap_cons, List.length_append, String.length_utf8EncodeChar,
      Nat.add_assoc, List.foldl_cons]
    rfl

/-- a character stands between the characters before it and those after it -/
theorem mem_glyphs {offset : Nat} {place : Location} {cs : List Char} {g : Glyph} (h : g ∈ glyphs offset place cs) :
    ∃ front c back, cs = front ++ c :: back ∧ g.offset = offset + (front.flatMap encode).length ∧
      place.line ≤ g.place.line := by
  induction cs generalizing offset place with
  | nil => cases h
  | cons c cs ih =>
    rcases List.mem_cons.1 h with rfl | h
    · exact ⟨[], c, cs, rfl, rfl, Nat.le_refl _⟩
    · obtain ⟨front, d, back, rfl, hoff, hline⟩ := ih h
      have hnext : place.line ≤ (place.next c).line := by
        unfold Location.next
        split
        · exact Nat.le_succ _
        · exact Nat.le_refl _
      refine ⟨c :: front, d, back, rfl, ?_, Nat.le_trans hnext hline⟩
      rw [hoff, List.flatMap_cons, List.length_append, String.length_utf8EncodeChar, Nat.add_assoc]

theorem offset_of_mem_glyphs {offset : Nat} {place : Location} {cs : List Char} {g : Glyph}
    (h : g ∈ glyphs offset place cs) : offset ≤ g.offset ∧ g.offset < offset + (cs.flatMap encode).length := by
  obtain ⟨front, c, back, rfl, hoff, -⟩ := mem_glyphs h
  have hpos := c.utf8Size_pos
  rw [List.flatMap_append, List.flatMap_cons, List.length_append, List.length_append, String.length_utf8EncodeChar]
  omega

theorem glyphs_pairwise (offset : Nat) (place : Location) (cs : List Char) :
    (glyphs offset place cs).Pairwise fun g g' => g.place.line ≤ g'.place.line := by
  induction cs generalizing offset place with
  | nil => exact .nil
  | cons c cs ih =>
    refine List.pairwise_cons.2 ⟨?_, ih _ _⟩
    intro g hg
    have hmem : g ∈ glyphs offset place (c :: cs) := List.mem_cons_of_mem _ hg
    obtain ⟨-, -, -, -, -, hline⟩ := mem_glyphs hmem
    exact hline

theorem boundary_of_mem_glyphs {src : Bytes} {place : Location} {cs : List Char} (hsrc : src.toList = cs.flatMap encode)
    {g : Glyph} (h : g ∈ glyphs 0 place cs) : Boundary src g.offset := by
  obtain ⟨front, c, back, rfl, hoff, -⟩ := mem_glyphs h
  have hlt := (offset_of_mem_glyphs h).2
  rw [Nat.zero_add] at hoff
  rw [← hsrc, Array.length_toList, Nat.zero_add] at hlt
  refine ⟨Nat.le_of_lt hlt, ?_⟩
  rw [List.flatMap_append] at hsrc
  have hdrop : src.toList.drop (front.flatMap encode).length = (c :: back).flatMap encode := by
    rw [hsrc, List.drop_left]
  rw [hoff, getElem?_head? hdrop]
  exact head?_chars _

/-! ## Bytes of characters -/

/-- bytes that end no line only add their units -/
theorem foldl_after {place : Location} {xs : List UInt8} (h : ∀ b ∈ xs, b ≠ ascii '\n') :
    xs.foldl Location.after place = { place with column := place.column + (xs.map utf16Width).sum } := by
  induction xs generalizing place with
  | nil => rfl
  | cons b xs ih =>
    rw [List.foldl_cons, ih fun x hx => h x (List.mem_cons_of_mem b hx), Location.after,
      if_neg (h b List.mem_cons_self), List.map_cons, List.sum_cons, Nat.add_assoc]

theorem foldl_after_encode (place : Location) (c : Char) : (encode c).foldl Location.after place = place.next c := by
  by_cases hc : c = '\n'
  · subst hc
    rfl
  · have hplain : ∀ b ∈ encode c, b ≠ ascii '\n' := by
      rintro b hb rfl
      exact hc (ascii_mem_encode (by decide) hb)
    rw [foldl_after hplain, utf16Width_encode, Location.next, if_neg hc]

theorem foldl_after_chars (place : Location) (cs : List Char) :
    (cs.flatMap encode).foldl Location.after place = cs.foldl Location.next place := by
  induction cs generalizing place with
  | nil => rfl
  | cons c cs ih => rw [List.flatMap_cons, List.foldl_append, foldl_after_encode, ih, List.foldl_cons]

theorem each_append {place : Location} {p : Nat} {xs ys : List UInt8} (h : ∀ b ∈ xs, isContinuation b = true) :
    Mark.each place p (xs ++ ys) = Mark.each (xs.foldl Location.after place) (p + xs.length) ys := by
  induction xs generalizing place p with
  | nil => rfl
  | cons b xs ih =>
    rw [List.cons_append, Mark.each, if_pos (h b List.mem_cons_self), ih fun x hx => h x (List.mem_cons_of_mem b hx),
      List.foldl_cons, List.length_cons, Nat.add_assoc, Nat.add_comm 1]

theorem each_chars (place : Location) (p offset : Nat) (cs : List Char) :
    Mark.each place p (cs.flatMap encode) =
      (glyphs offset place cs).map fun g => ⟨g.place, p + (g.offset - offset)⟩ := by
  induction cs generalizing place p offset with
  | nil => rfl
  | cons c cs ih =>
    obtain ⟨b, bs, heq, hb, hbs⟩ := encode_eq_cons c
    have hlen : c.utf8Size = bs.length + 1 := (String.length_utf8EncodeChar c).symm.trans (congrArg List.length heq)
    have hnext : bs.foldl Location.after (place.after b) = place.next c := by
      rw [← List.foldl_cons, ← heq, foldl_after_encode]
    rw [List.flatMap_cons, heq, List.cons_append, Mark.each, if_neg (by simp [hb]), each_append hbs, hnext, glyphs,
      List.map_cons, Nat.sub_self, ih _ _ (offset + c.utf8Size)]
    congr 1
    apply List.map_congr_left
    intro g hg
    have hle := (offset_of_mem_glyphs hg).1
    simp only [Mark.mk.injEq, true_and]
    omega

/-! ## Marks -/

/-- whether the segment marks a character at output offset `o`: any that it keeps, and the first that it puts -/
def Segment.marks (s : Segment) (o : Nat) : Bool :=
  if s.verbatim then s.output.start ≤ o && o < s.output.stop
  else o == s.output.start && s.output.start < s.output.stop

/-- whether a segment of the alignment marks a character at output offset `o` -/
def Alignment.marks (a : Alignment) (o : Nat) : Bool := a.segments.any fun s => s.marks o

/-- the mark of a character, with the offset of the source that the alignment finds for it -/
def Glyph.mark (a : Alignment) (g : Glyph) : Mark := ⟨g.place, (a.sourceOffset g.offset).getD 0⟩

theorem Segment.bounds_of_marks {s : Segment} {o : Nat} (h : s.marks o = true) :
    s.output.start ≤ o ∧ o < s.output.stop := by
  unfold Segment.marks at h
  split at h
  · simpa using h
  · simp only [Bool.and_eq_true, beq_iff_eq, decide_eq_true_eq] at h
    omega

section segment

variable {a : Alignment} {s : Segment} {place : Location} {cs : List Char}
  (hstop : s.output.stop = s.output.start + (cs.flatMap encode).length)
  (hcarry : ∀ o, s.output.start ≤ o → o < s.output.stop →
    a.sourceOffset o = some (s.carry Segment.output Segment.source o))
include hstop

theorem mem_glyphs_segment {g : Glyph} (hg : g ∈ glyphs s.output.start place cs) :
    s.output.start ≤ g.offset ∧ g.offset < s.output.stop :=
  hstop ▸ offset_of_mem_glyphs hg

include hcarry

/-- a verbatim segment marks all its characters -/
theorem ofSegment_verbatim (hv : s.verbatim = true) :
    Mark.ofSegment s place (cs.flatMap encode) =
      ((glyphs s.output.start place cs).filter fun g => s.marks g.offset).map (Glyph.mark a) := by
  have hall : ∀ g ∈ glyphs s.output.start place cs, s.marks g.offset = true := by
    intro g hg
    simp [Segment.marks, hv, mem_glyphs_segment hstop hg]
  rw [Mark.ofSegment, if_pos hv, each_chars place s.source.start s.output.start, List.filter_eq_self.2 hall]
  apply List.map_congr_left
  intro g hg
  obtain ⟨h1, h2⟩ := mem_glyphs_segment hstop hg
  rw [Glyph.mark, hcarry _ h1 h2, Option.getD_some, Segment.carry, if_pos hv]

/-- any other segment marks its first character -/
theorem ofSegment_replaced (hv : s.verbatim ≠ true) :
    Mark.ofSegment s place (cs.flatMap encode) =
      ((glyphs s.output.start place cs).filter fun g => s.marks g.offset).map (Glyph.mark a) := by
  rw [Mark.ofSegment, if_neg hv]
  cases cs with
  | nil => rfl
  | cons c cs =>
    have hpos := c.utf8Size_pos
    have hlt : s.output.start < s.output.stop := (mem_glyphs_segment (g := ⟨_, place⟩) hstop List.mem_cons_self).2
    have hfirst : s.marks s.output.start = true := by simp [Segment.marks, hv, hlt]
    have hothers : ∀ g ∈ glyphs (s.output.start + c.utf8Size) (place.next c) cs, ¬ s.marks g.offset = true := by
      intro g hg
      have hne : g.offset ≠ s.output.start := by
        have := (offset_of_mem_glyphs hg).1
        omega
      simp [Segment.marks, hv, hne]
    obtain ⟨b, bs, heq, -⟩ := encode_eq_cons c
    rw [glyphs, List.filter_cons, if_pos hfirst, List.filter_eq_nil_iff.2 hothers, List.map_singleton, Glyph.mark,
      hcarry _ (Nat.le_refl _) hlt, Option.getD_some, Segment.carry, if_neg hv, List.flatMap_cons, heq]
    rfl

/-- the marks of one segment -/
theorem ofSegment_chars :
    Mark.ofSegment s place (cs.flatMap encode) =
      ((glyphs s.output.start place cs).filter fun g => s.marks g.offset).map (Glyph.mark a) := by
  by_cases hv : s.verbatim = true
  · exact ofSegment_verbatim hstop hcarry hv
  · exact ofSegment_replaced hstop hcarry hv

end segment

theorem le_of_mem_layout {src : Bytes} {q : Nat} {parts : List Piece} {s : Segment} (h : s ∈ layout src q parts) :
    q ≤ s.output.start :=
  ((tiles_layout src q parts).bounds s.output (List.mem_map_of_mem h)).1

/-- before the end of the first piece, its own segment marks -/
theorem marks_cons_of_lt {src : Bytes} {q : Nat} (part : Piece) (parts : List Piece) {o : Nat}
    (h : o < q + (part.bytes src).size) :
    ((layout src q (part :: parts)).any fun s => s.marks o) =
      Segment.marks ⟨⟨q, q + (part.bytes src).size⟩, part.source, part.verbatim⟩ o := by
  have hno : ((layout src (q + (part.bytes src).size) parts).any fun s => s.marks o) = false := by
    rw [List.any_eq_false]
    intro s hs hm
    have hle := le_of_mem_layout hs
    have := (Segment.bounds_of_marks hm).1
    omega
  rw [layout, List.any_cons, hno, Bool.or_false]

/-- from there on, the segments of the others do -/
theorem marks_cons_of_le {src : Bytes} {q : Nat} (part : Piece) (parts : List Piece) {o : Nat}
    (h : q + (part.bytes src).size ≤ o) :
    ((layout src q (part :: parts)).any fun s => s.marks o) =
      (layout src (q + (part.bytes src).size) parts).any fun s => s.marks o := by
  have hno : Segment.marks ⟨⟨q, q + (part.bytes src).size⟩, part.source, part.verbatim⟩ o = false := by
    by_contra hm
    have := (Segment.bounds_of_marks (Bool.of_not_eq_false hm)).2
    exact absurd this (Nat.not_lt.2 h)
  rw [layout, List.any_cons, hno, Bool.false_or]

/-- **The marks of pieces** are those of their characters that a segment marks. -/
theorem ofSegments_layout {src code : Bytes} {a : Alignment} {parts : List Piece} {q : Nat} {place : Location}
    (hchars : ∀ part ∈ parts, ∃ mid : List Char, (part.bytes src).toList = mid.flatMap encode)
    (htext : code.toList.drop q = written src parts)
    (hcarry : ∀ s ∈ layout src q parts, ∀ o, s.output.start ≤ o → o < s.output.stop →
      a.sourceOffset o = some (s.carry Segment.output Segment.source o)) :
    ∃ cs : List Char, written src parts = cs.flatMap encode ∧
      Mark.ofSegments code place (layout src q parts) =
        ((glyphs q place cs).filter fun g => (layout src q parts).any fun s => s.marks g.offset).map
          (Glyph.mark a) := by
  induction parts generalizing q place with
  | nil => exact ⟨[], rfl, rfl⟩
  | cons part parts ih =>
    obtain ⟨mid, hmid⟩ := hchars part List.mem_cons_self
    have hsize : (part.bytes src).size = (mid.flatMap encode).length := by rw [← hmid, Array.length_toList]
    have htext : code.toList.drop q = mid.flatMap encode ++ written src parts := by
      rw [htext, ← hmid]
      rfl
    obtain ⟨cs, hcs, hmarks⟩ := @ih (q + (part.bytes src).size) (mid.foldl Location.next place)
      (fun x hx => hchars x (List.mem_cons_of_mem part hx)) (hsize ▸ drop_add_of_drop htext)
      (fun s hs => hcarry s (List.mem_cons_of_mem _ hs))
    have hhead := @ofSegment_chars a ⟨⟨q, q + (part.bytes src).size⟩, part.source, part.verbatim⟩ place mid
      (by rw [hsize]) (hcarry _ List.mem_cons_self)
    -- the first segment marks characters of its own piece only, the later segments none of them
    have hmine := fun g (hg : g ∈ glyphs q place mid) =>
      marks_cons_of_lt part parts (hsize ▸ (offset_of_mem_glyphs hg).2)
    have hlater := fun g (hg : g ∈ glyphs (q + (part.bytes src).size) (mid.foldl Location.next place) cs) =>
      marks_cons_of_le part parts (offset_of_mem_glyphs hg).1
    refine ⟨mid ++ cs, by rw [List.flatMap_append, ← hcs, ← hmid]; rfl, ?_⟩
    have hbytes : (code.extract q (q + (part.bytes src).size)).toList = mid.flatMap encode := by
      rw [hsize]
      exact extract_of_drop htext
    rw [glyphs_append, List.filter_append, List.map_append, ← hsize, List.filter_congr hmine, List.filter_congr hlater,
      ← hmarks, ← hhead, ← foldl_after_chars, ← hbytes]
    rfl

end Respell
