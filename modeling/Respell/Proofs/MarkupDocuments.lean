/-
Documents of markup, and what the attribute rule makes of them. A document is a sequence of plain texts, closing tags,
and opening or self-closing tags. The sweep of the rule hands over to the reading of a tag at each tag that opens, and
comes back to normal code behind it; `Swept` says what it does over some bytes, as `TagPart` does for the reading of a
tag.

Main result, `renamed_exact`: the output of the rule alone is the document in which each attribute `class` with a value
is called `className`, and all else is as it was.
-/
import Respell.Proofs.MarkupTags

namespace Respell.Markup

open Attribute

/-! ## Documents -/

def inText (b : UInt8) : Bool := !(b == ascii '<' || b == ascii '"' || b == ascii '\'' || b == 0x60 || b == ascii '/')

inductive Part where
  | text (bytes : List UInt8) (plain : ∀ b ∈ bytes, inText b = true)
  | closing (name : TagName)
  | tag (t : Tag)

def Part.render : Part → List UInt8
  | .text bytes _ => bytes
  | .closing name => ascii '<' :: ascii '/' :: (name.render ++ [ascii '>'])
  | .tag t => t.render

def render (doc : List Part) : List UInt8 := doc.flatMap Part.render

def Part.renamed : Part → Part
  | .text bytes plain => .text bytes plain
  | .closing name => .closing name
  | .tag t => .tag t.renamed

variable {src : Bytes} {p : Nat} {b : UInt8} {xs rest : List UInt8}

/-! ## Sweeping over a document -/

/-- a sweep that stands at `p`, in normal code, goes on in normal code behind `xs`; what it finds in between makes `ys`
of `xs` -/
structure Swept (src : Bytes) (p : Nat) (xs : List UInt8) (edits : List Edit) (ys : List UInt8) : Prop where
  found : sweep src (rule src) ⟨p, .normal, []⟩ = edits ++ sweep src (rule src) ⟨p + xs.length, .normal, []⟩
  writes : Writes src p xs edits ys

theorem Swept.append {xs' ys ys' : List UInt8} {edits edits' : List Edit} (h : Swept src p xs edits ys)
    (h' : Swept src (p + xs.length) xs' edits' ys') : Swept src p (xs ++ xs') (edits ++ edits') (ys ++ ys') := by
  constructor
  · rw [h.found, h'.found, List.length_append, List.append_assoc, Nat.add_assoc]
  · exact h.writes.append h'.writes

/-- a byte of normal code that opens no other region -/
theorem sweep_of_live (hb : src[p]? = some b) (hlive : Scanner.opening? src p b = none) :
    sweep src (rule src) ⟨p, .normal, []⟩ = (rule src .normal p b).edits ++
      sweep src (rule src) (Scanner.skipTo src ⟨p + 1, .normal, []⟩ (rule src .normal p b).readTo) := by
  have hstep : Scanner.step src ⟨p, .normal, []⟩ b = (⟨p + 1, .normal, []⟩, true) := by
    simp only [Scanner.step, hlive, Scanner.advance]
  have hnext : Scanner.nextLive src ⟨p, .normal, []⟩ = (some p, ⟨p + 1, .normal, []⟩) := by
    rw [Scanner.nextLive_of_getElem? hb, hstep]
    rfl
  rw [sweep, hnext]
  simp only [hb, Option.getD_some]

theorem swept_byte (h : Remains src p (b :: rest)) (hlive : Scanner.opening? src p b = none)
    (hopens : opensTag src p b = false) : Swept src p [b] [] [b] := by
  refine ⟨?_, Writes.kept h⟩
  have hrule : rule src .normal p b = ⟨[], p⟩ := by simp [rule, hopens]
  rw [sweep_of_live h.head hlive, hrule, Scanner.skipTo, Nat.min_eq_left h.le, Nat.max_eq_left (Nat.le_succ p)]
  rfl

theorem swept_text (h : Remains src p (xs ++ rest)) (hxs : ∀ b ∈ xs, inText b = true) : Swept src p xs [] xs := by
  induction xs generalizing p with
  | nil => exact ⟨rfl, Writes.kept h⟩
  | cons b xs ih =>
    have hb := hxs b List.mem_cons_self
    simp only [inText, Bool.not_eq_true', Bool.or_eq_false_iff, beq_eq_false_iff_ne] at hb
    obtain ⟨⟨⟨⟨h1, h2⟩, h3⟩, h4⟩, h5⟩ := hb
    have hlive : Scanner.opening? src p b = none := by simp [Scanner.opening?, h2, h3, h4, h5]
    have hopens : opensTag src p b = false := by simp [opensTag, h1]
    exact (swept_byte h hlive hopens).append (ih h.cons fun x hx => hxs x (List.mem_cons_of_mem b hx))

theorem inText_of_inTagName {b : UInt8} (h : inTagName b = true) : inText b = true := by
  by_contra hnot
  simp only [inText, Bool.not_eq_true', Bool.not_eq_false, Bool.or_eq_true, beq_iff_eq] at hnot
  rcases hnot with (((rfl | rfl) | rfl) | rfl) | rfl <;> exact absurd h (by decide)

/-- a closing tag is read as text, but for its first two bytes -/
theorem swept_closing (name : TagName) (h : Remains src p ((Part.closing name).render ++ rest)) :
    Swept src p (Part.closing name).render [] (Part.closing name).render := by
  have hslash := h.cons
  have hname := hslash.cons
  have hletter : src[p + 1 + 1]? = some name.first := hname.head
  have hne : name.first ≠ ascii '/' ∧ name.first ≠ ascii '*' := by
    have hfirst := name.inTagName_of_mem List.mem_cons_self
    constructor <;> intro heq <;> rw [heq] at hfirst <;> exact absurd hfirst (by decide)
  have hopen : Swept src p [ascii '<'] [] [ascii '<'] := by
    refine swept_byte h (by simp +decide [Scanner.opening?]) ?_
    simp +decide [opensTag, hslash.head]
  have hsecond : Swept src (p + 1) [ascii '/'] [] [ascii '/'] := by
    refine swept_byte hslash ?_ (by simp +decide [opensTag])
    simp +decide [Scanner.opening?, hletter, hne]
  have hrest : Swept src (p + 1 + 1) (name.render ++ [ascii '>']) [] (name.render ++ [ascii '>']) := by
    refine swept_text hname fun b hb => ?_
    rcases List.mem_append.1 hb with hb | hb
    · exact inText_of_inTagName (name.inTagName_of_mem hb)
    · rw [List.mem_singleton.1 hb]
      decide
  exact hopen.append (hsecond.append hrest)

theorem swept_tag (t : Tag) (h : Remains src p (t.render ++ rest)) :
    ∃ edits, Swept src p t.render edits t.renamed.render := by
  have hinside : Remains src (p + 1) (t.inside ++ ascii '>' :: rest) := by simpa [Tag.render] using h.cons
  obtain ⟨marks, hmarks⟩ := tagPart_inside t hinside
  have hclose := hinside.append
  have hread : tag src none (p + 1) = (marks, p + 1 + t.inside.length + 1) := by
    rw [hmarks.found, tag_of_close hclose.head, List.append_nil]
  have hopens : opensTag src p (ascii '<') = true := by
    have hletter : src[p + 1]? = some t.name.first := hinside.head
    rcases t.name.opens with hopens | hopens <;> simp [opensTag, hletter, hopens]
  have hrule : rule src .normal p (ascii '<') = ⟨marks.map markEdit, p + 1 + t.inside.length + 1⟩ := by
    simp only [rule, hopens, hread, if_true]
    rfl
  have hlength : p + t.render.length = p + 1 + t.inside.length + 1 := by
    simp only [Tag.render, List.length_cons, List.length_append, List.length_nil]
    omega
  refine ⟨marks.map markEdit, ?_, ?_⟩
  · rw [sweep_of_live h.head (by simp +decide [Scanner.opening?]), hrule, hlength]
    simp only [Scanner.skipTo, Nat.min_eq_left hclose.cons.le]
    rw [Nat.max_eq_right (by omega)]
  · have hfirst : Writes src p [ascii '<'] [] [ascii '<'] := Writes.kept h
    have hlast : Writes src (p + 1 + t.inside.length) [ascii '>'] [] [ascii '>'] := Writes.kept hclose
    simpa [Tag.render] using hfirst.append (hmarks.writes.append hlast)

theorem swept_part (part : Part) (h : Remains src p (part.render ++ rest)) :
    ∃ edits, Swept src p part.render edits part.renamed.render := by
  cases part with
  | text bytes plain => exact ⟨[], swept_text h plain⟩
  | closing name => exact ⟨[], swept_closing name h⟩
  | tag t => exact swept_tag t h

theorem swept_render (doc : List Part) (h : Remains src p (render doc ++ rest)) :
    ∃ edits, Swept src p (render doc) edits (render (doc.map Part.renamed)) := by
  induction doc generalizing p with
  | nil => exact ⟨[], rfl, Writes.kept h⟩
  | cons part doc ih =>
    simp only [render, List.flatMap_cons, List.append_assoc] at h
    obtain ⟨edits, hpart⟩ := swept_part part h
    obtain ⟨edits', hdoc⟩ := ih h.append
    exact ⟨_, hpart.append hdoc⟩

theorem sweep_at_end (rule : Region → Nat → UInt8 → Finding) :
    sweep src rule ⟨src.size, .normal, []⟩ = [] := by
  have hnext : Scanner.nextLive src ⟨src.size, .normal, []⟩ = (none, ⟨src.size, .normal, []⟩) := by
    rw [Scanner.nextLive, dif_neg (Nat.lt_irrefl _)]
  rw [sweep, hnext]

/-- **The attribute rule renames, and does nothing else.** On the text of a document the rule alone succeeds, and its
output is the text of the document in which each attribute `class` with a value is called `className`. -/
theorem renamed_exact (doc : List Part) :
    ∃ out, applyEdits (render doc).toArray (Attribute.edits (render doc).toArray) = .ok out ∧
      out.code.toList = render (doc.map Part.renamed) := by
  refine ⟨_, applyEdits_of_before _ (attribute_order _), ?_⟩
  have hstart : Remains (render doc).toArray 0 (render doc ++ []) := by
    rw [List.append_nil]
    exact Remains.start _
  obtain ⟨edits, hdoc⟩ := swept_render doc hstart
  have hedits : Attribute.edits (render doc).toArray = edits ++ [] := by
    rw [Attribute.edits, Scanner.start, hdoc.found, Nat.zero_add, ← sweep_at_end (rule (render doc).toArray)]
    rfl
  rw [render_code, hedits, hdoc.writes.eq [] (by simp), Nat.zero_add, written_pieces_nil]
  simp

def letterAttr (b : UInt8) (h : joinsName b = true) : AttrName := ⟨[b], by simpa using h, by simp⟩

def space : Gap := ⟨[ascii ' '], List.all_eq_true.1 (by decide), by simp⟩

def tagInBraces : Braces := ⟨(utf8 "<i class='y'/>").toList, by decide +kernel⟩

/-- `<b t='>' u="class=" class={<i class='y'/>}>` -/
def crowdedTag : Tag where
  name := ⟨ascii 'b', [], by decide, by simp⟩
  attrs := [
    .named space (letterAttr (ascii 't') (by decide)) (some (.quoted .single [ascii '>'] (by decide))),
    .named space (letterAttr (ascii 'u') (by decide)) (some (.quoted .double (utf8 "class=").toList (by decide))),
    .named space classAttr (some (.braces tagInBraces))]
  trail := []
  spaces := by simp
  selfClosing := false

def crowdedDocument : List Part :=
  [.tag crowdedTag, .text (utf8 "class=x").toList (List.all_eq_true.1 (by decide)), .closing crowdedTag.name]

/-- values that hold `>` and `class=`, a tag in braces and a text with `class=`: one attribute is renamed -/
theorem renamed_exact_crowded :
    render crowdedDocument = (utf8 "<b t='>' u=\"class=\" class=\x7b<i class='y'/>\x7d>class=x</b>").toList ∧
      ∃ out, applyEdits (render crowdedDocument).toArray (Attribute.edits (render crowdedDocument).toArray) = .ok out ∧
        out.code = utf8 "<b t='>' u=\"class=\" className=\x7b<i class='y'/>\x7d>class=x</b>" := by
  obtain ⟨out, hout, hcode⟩ := renamed_exact crowdedDocument
  refine ⟨by decide +kernel, out, hout, Array.toList_inj.1 (hcode.trans ?_)⟩
  decide +kernel

end Respell.Markup
