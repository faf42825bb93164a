/-
Maps are faithful. Two computations find where a character of the output comes from: the sweep over segments that
makes the marks of the map, and the bisection of the alignment. The map writes what the first one finds, as
differences in base64 digits; places in the source come from a table of lines.

Main result, `decode?_map`: whoever reads the map of an output back gets one segment for each marked character, in
order and nothing else. Each segment says where its character stands in the output, and the place in the source of the
offset that the alignment gives for it. All places are those of characters, counted one by one.

The source must not begin with a byte-order mark: the map carries its content without the mark, and offsets then count
from elsewhere.
-/
import Respell.Proofs.Glyphs
import Respell.Proofs.MapDecoding

namespace Respell

/-! ## Offsets of the source that have a place -/

/-- the table of the text's lines has the offset's place -/
structure Placeable (src : Bytes) (p : Nat) : Prop where
  boundary : Boundary src p
  nonempty : 0 < src.size
  ends : p < src.size ∨ src[src.size - 1]?.any isLineEnd = false

theorem isLineEnd_of_isQuote : ∀ b, ImportLine.isQuote b = true → isLineEnd b = false := by decide +kernel

/-- an edit begins at such an offset: only a semicolon is put at the end of a text, behind a word or a quote -/
theorem Shape.placeable {src : Bytes} {cs : List Char} (hsrc : src.toList = cs.flatMap encode) {e : Edit}
    (h : Shape src e) : Placeable src e.start := by
  have hend : ∀ {p : Nat}, 0 < p → p ≤ src.size → src[p - 1]?.any isLineEnd = false →
      0 < src.size ∧ (p < src.size ∨ src[src.size - 1]?.any isLineEnd = false) := by
    intro p hpos hle hlast
    refine ⟨Nat.lt_of_lt_of_le hpos hle, ?_⟩
    rcases Nat.eq_or_lt_of_le hle with rfl | hlt
    · exact .inr hlast
    · exact .inl hlt
  have hlt : e.start < e.stop → 0 < src.size ∧ (e.start < src.size ∨ src[src.size - 1]?.any isLineEnd = false) := by
    intro hlt
    have hle := h.stop_le
    exact ⟨by omega, .inl (by omega)⟩
  suffices 0 < src.size ∧ (e.start < src.size ∨ src[src.size - 1]?.any isLineEnd = false) from
    ⟨(h.boundary hsrc).1, this.1, this.2⟩
  cases id h with
  | word hw => exact hlt hw.lt
  | joined hw _ hg hn => exact hlt (Nat.lt_of_lt_of_le hw.lt (Nat.le_trans hg.le (Nat.le_of_lt hn.lt)))
  | classMark => exact hlt (Nat.lt_add_of_pos_right (by decide))
  | drop hd => exact hlt (Nat.lt_of_lt_of_le hd.lt (Nat.le_add_right _ _))
  | @closeDropped n m hd =>
    exact hend (by simp) hd.word.le_size
      (any_eq_false_of_any isLineEnd_of_inWord (hd.word.inside (m + 1) (Nat.le_succ m) (Nat.lt_succ_self _)))
  | close hp hq => exact hend hp h.stop_le (any_eq_false_of_any isLineEnd_of_isQuote hq)

theorem mem_of_put_mem {src : Bytes} {p : Nat} {edits : List Edit} {e : Edit} (h : Piece.put e ∈ pieces src p edits) :
    e ∈ edits := by
  have hkeeping : ∀ {p s : Nat}, Piece.put e ∉ Piece.keeping p s := by
    intro p s
    unfold Piece.keeping
    split <;> simp
  induction edits generalizing p with
  | nil => exact absurd h hkeeping
  | cons e' rest ih =>
    rw [pieces, List.mem_append, List.mem_cons] at h
    rcases h with h | h | h
    · exact absurd h hkeeping
    · rw [Piece.put.inj h]
      exact List.mem_cons_self
    · exact List.mem_cons_of_mem e' (ih h)

theorem Shape.inRange {src : Bytes} {e : Edit} (h : Shape src e) : e.InRange src := ⟨h.le, h.stop_le⟩

/-! ## Marks of an output -/

def Alignment.marked (a : Alignment) (out : List Char) : List Glyph :=
  (glyphs 0 ⟨0, 0⟩ out).filter fun g => a.marks g.offset

/-- the entry of a character, with places counted one by one -/
def Glyph.entry (cs : List Char) (a : Alignment) (g : Glyph) : Entry :=
  ⟨g.place, placeFrom ⟨0, 0⟩ ((a.sourceOffset g.offset).getD 0) cs⟩

section render

variable {src : Bytes} {edits : List Edit} (hshape : ∀ e ∈ edits, Shape src e)
  (horder : edits.Pairwise fun a b => a.stop ≤ b.start)
include hshape horder

theorem paired_of_shapes :
    Paired (render src edits).alignment.segments.toList Segment.output Segment.source (render src edits).code.size
      src.size :=
  paired_render (fun e he => (hshape e he).inRange) horder

theorem sourceOffset_of_marks {o : Nat} (hm : (render src edits).alignment.marks o = true) :
    ∃ s ∈ (render src edits).alignment.segments, s.marks o = true ∧ o < (render src edits).code.size ∧
      (render src edits).alignment.sourceOffset o = some (s.carry Segment.output Segment.source o) := by
  obtain ⟨s, hs, hso⟩ := Array.any_eq_true'.1 hm
  obtain ⟨h1, h2⟩ := Segment.bounds_of_marks hso
  have hpaired := paired_of_shapes hshape horder
  exact ⟨s, hs, hso, Nat.lt_of_lt_of_le h2 (hpaired.bounds hs).2.1, hpaired.across_of_mem hs h1 h2⟩

variable {cs : List Char} (hsrc : src.toList = cs.flatMap encode)
include hsrc

theorem placeable_of_marks {s : Segment} (hs : s ∈ (render src edits).alignment.segments) {o : Nat}
    (hm : s.marks o = true) (ho : Boundary (render src edits).code o) :
    Placeable src (s.carry Segment.output Segment.source o) := by
  obtain ⟨h1, h2⟩ := Segment.bounds_of_marks hm
  unfold Segment.carry
  split
  · next hv =>
    have hpaired := paired_of_shapes hshape horder
    have hw := hpaired.width s (Array.mem_toList_iff.2 hs) hv
    have hle := (hpaired.bounds hs).2.2.2
    have hget := getElem?_render (fun e he => (hshape e he).inRange) horder hs hv (k := o - s.output.start) (by omega)
    rw [Nat.add_sub_cancel' h1] at hget
    exact ⟨⟨by omega, hget ▸ ho.2⟩, by omega, .inl (by omega)⟩
  · next hv =>
    rw [← Array.mem_toList_iff, segments_render] at hs
    obtain ⟨part, hpart, hsource, hverb, -⟩ := mem_layout (Nat.zero_le _) (render_code src edits) hs
    cases part with
    | keep start stop => exact absurd hverb hv
    | put e =>
      rw [hsource]
      exact (hshape e (mem_of_put_mem hpart)).placeable hsrc

/-- the output spells characters, and its marks are theirs -/
theorem marks_render :
    ∃ out : List Char, (render src edits).code.toList = out.flatMap encode ∧
      Mark.ofOutput (render src edits).code (render src edits).alignment =
        ((render src edits).alignment.marked out).map (Glyph.mark (render src edits).alignment) := by
  have hzero : Boundary src 0 := ⟨Nat.zero_le _, by rw [getElem?_head? (p := 0) hsrc]; exact head?_chars cs⟩
  have hchars := chars_pieces hsrc hzero fun e he => (hshape e he).boundary hsrc
  have hcarry : ∀ s ∈ layout src 0 (pieces src 0 edits), ∀ o, s.output.start ≤ o → o < s.output.stop →
      (render src edits).alignment.sourceOffset o = some (s.carry Segment.output Segment.source o) := by
    intro s hs o h1 h2
    rw [← segments_render, Array.mem_toList_iff] at hs
    exact (paired_of_shapes hshape horder).across_of_mem hs h1 h2
  obtain ⟨out, hout, hmarks⟩ := @ofSegments_layout src (render src edits).code _ _ 0 ⟨0, 0⟩ hchars
    (render_code src edits) hcarry
  refine ⟨out, (render_code src edits).trans hout, ?_⟩
  have hmarked : ∀ g : Glyph, ((layout src 0 (pieces src 0 edits)).any fun s => s.marks g.offset) =
      (render src edits).alignment.marks g.offset := by
    intro g
    rw [Alignment.marks, ← segments_render, Array.any_toList]
  rw [Mark.ofOutput, segments_render, hmarks, Alignment.marked, List.filter_congr fun g _ => hmarked g]

/-- no mark is left without a place -/
theorem ofMarks_render {out : List Char} (hout : (render src edits).code.toList = out.flatMap encode) :
    Entry.ofMarks (Places.ofText src)
        (((render src edits).alignment.marked out).map (Glyph.mark (render src edits).alignment)) =
      ((render src edits).alignment.marked out).map (Glyph.entry cs (render src edits).alignment) := by
  rw [Entry.ofMarks, List.filterMap_map, List.filterMap_eq_map_iff_forall_eq_some]
  intro g hg
  obtain ⟨hmem, hm⟩ := List.mem_filter.1 hg
  obtain ⟨s, hs, hso, -, hoff⟩ := sourceOffset_of_marks hshape horder hm
  have hplace := placeable_of_marks hshape horder hsrc hs hso (boundary_of_mem_glyphs hout hmem)
  have hfound := Places.locate?_ofText hsrc hplace.boundary hplace.nonempty hplace.ends
  simp only [Function.comp_apply, Glyph.mark, Glyph.entry, hoff, Option.getD_some, hfound, Option.map_some]

omit hsrc

/-- no segment marks what is appended to the output -/
theorem marked_append {out : List Char} (hout : (render src edits).code.toList = out.flatMap encode)
    (more : List Char) :
    (render src edits).alignment.marked (out ++ more) = (render src edits).alignment.marked out := by
  have hnone : ((glyphs (0 + (out.flatMap encode).length) (out.foldl Location.next ⟨0, 0⟩) more).filter fun g =>
      (render src edits).alignment.marks g.offset) = [] := by
    rw [List.filter_eq_nil_iff]
    intro g hg hm
    have hle := (offset_of_mem_glyphs hg).1
    obtain ⟨-, -, -, hlt, -⟩ := sourceOffset_of_marks hshape horder hm
    rw [Nat.zero_add, ← hout, Array.length_toList] at hle
    exact absurd hlt (Nat.not_lt.2 hle)
  rw [Alignment.marked, glyphs_append, List.filter_append, hnone, List.append_nil]
  rfl

end render

/-! ## Maps -/

/-- the segment `d` of a map traces the character `g` of the output: it says where the character stands, and the place
in the source of the offset that the alignment gives for it -/
def Glyph.Traced (source : String) (a : Alignment) (g : Glyph) (d : Mapping) : Prop :=
  ∃ p, a.sourceOffset g.offset = some p ∧
    d = ⟨g.place.line, g.place.column, some ⟨0, (placeFrom ⟨0, 0⟩ p source.toList).line,
      (placeFrom ⟨0, 0⟩ p source.toList).column, none⟩⟩

theorem withoutMark_eq {source : String} (h : source.toList.head? ≠ some '\ufeff') :
    SourceMap.withoutMark source = source := by
  unfold SourceMap.withoutMark
  split
  · next rest heq =>
    rw [heq] at h
    exact absurd rfl h
  · rfl

/-- every source is respelled; what is appended to the output is a string, possibly empty -/
theorem respell_eq (source : String) (options : Options) :
    ∃ trailer : String, respell source options =
      .ok ⟨(render (utf8 source) (orderedEdits (utf8 source))).code ++ utf8 trailer,
        SourceMap.ofOutput options.name source (render (utf8 source) (orderedEdits (utf8 source))).code
          (render (utf8 source) (orderedEdits (utf8 source))).alignment,
        (render (utf8 source) (orderedEdits (utf8 source))).alignment⟩ := by
  cases hi : options.inlineMap with
  | true => exact ⟨_, by simp only [respell, applyEdits_allEdits, hi]; rfl⟩
  | false => exact ⟨"", by simp only [respell, applyEdits_allEdits, hi]; rfl⟩

theorem decode?_entries (cs : List Char) (a : Alignment) (out : List Char) :
    Mapping.decode? (Entry.mappings ((a.marked out).map (Glyph.entry cs a))) =
      some ((a.marked out).map fun g => (g.entry cs a).mapping) := by
  have hlines : ((a.marked out).map (Glyph.entry cs a)).Pairwise fun e e' => e.output.line ≤ e'.output.line := by
    rw [List.pairwise_map]
    exact (glyphs_pairwise 0 ⟨0, 0⟩ out).filter _
  rw [Entry.decode?_mappings hlines, List.map_map]
  rfl

/-- **Maps are faithful.** Every source is respelled, whatever the options. The map of the output is read back as one
segment for each character of the output that is kept or is the first of what is put, in order, and each segment traces
its character. -/
theorem decode?_map (source : String) (options : Options) (h : source.toList.head? ≠ some '\ufeff') :
    ∃ out text found, respell source options = .ok out ∧ out.code = utf8 text ∧
      Mapping.decode? out.map.mappings = some found ∧
      List.Forall₂ (Glyph.Traced source out.alignment) (out.alignment.marked text.toList) found := by
  have hsrc := utf8_toList source
  have hshape : ∀ e ∈ orderedEdits (utf8 source), Shape (utf8 source) e := fun e he => shape_of_ordered he
  have horder := orderedEdits_stop_le (utf8 source)
  obtain ⟨chars, hchars, hmarks⟩ := marks_render hshape horder hsrc
  obtain ⟨trailer, hrespell⟩ := respell_eq source options
  have hentries := ofMarks_render hshape horder hsrc hchars
  generalize hr : render (utf8 source) (orderedEdits (utf8 source)) = rendered at *
  refine ⟨_, String.ofList (chars ++ trailer.toList), (rendered.alignment.marked chars).map fun g =>
    (g.entry source.toList rendered.alignment).mapping, hrespell, ?_, ?_, ?_⟩
  · rw [utf8_ofList, List.flatMap_append, ← hchars, ← utf8_toList]
    simp
  · simp only [SourceMap.ofOutput, withoutMark_eq h, hmarks, hentries]
    exact decode?_entries _ _ _
  · subst hr
    rw [String.toList_ofList, marked_append hshape horder hchars, List.forall₂_map_right_iff, List.forall₂_same]
    intro g hg
    obtain ⟨s, -, -, -, hoff⟩ := sourceOffset_of_marks hshape horder (List.mem_filter.1 hg).2
    refine ⟨_, hoff, ?_⟩
    simp only [Entry.mapping, Glyph.entry, hoff, Option.getD_some]

/-- two units in one character, a line that ends in two bytes, and a semicolon put at the end -/
theorem decode?_map_surrogates :
    "😀 = warna agar\r\nle 'm' se".toList.head? ≠ some '\ufeff' ∧
      ∃ out text found, respell "😀 = warna agar\r\nle 'm' se" ⟨some "a.neha", true⟩ = .ok out ∧ out.code = utf8 text ∧
        Mapping.decode? out.map.mappings = some found ∧
        List.Forall₂ (Glyph.Traced "😀 = warna agar\r\nle 'm' se" out.alignment)
          (out.alignment.marked text.toList) found :=
  ⟨by decide +kernel, decode?_map _ _ (by decide +kernel)⟩

end Respell
