/-
Respelling an output again. No keyword and no member is left in an output, and no import line, if lines that begin with
`le` are not joined with the next one. What is left is `class=` in a tag, which `varg=` is spelled as, and which the
second run spells anew.

Main result, `respell_again`: the second run changes nothing just when `varg` is nowhere an attribute name.
`respelled_twice` has three texts that change: one with such a name, and one for either proviso on `warna` and `agar`.
-/
import Respell.Proofs.MapFidelity
import Respell.Proofs.OutputLines
import Respell.Proofs.Unchanged

namespace Respell

open Vocabulary

/-! ## The text of a run -/

theorem respell_plain (source : String) (filename : Option String) :
    ∃ out, respell source ⟨filename, false⟩ = .ok out ∧ out.code = respelled (utf8 source) := by
  refine ⟨_, by simp only [respell, applyEdits_allEdits]; rfl, ?_⟩
  simp only [Bool.false_eq_true, if_false, Array.append_empty]
  rfl

theorem exists_text (source : String) : ∃ text : String, utf8 text = respelled (utf8 source) := by
  have hshape : ∀ e ∈ orderedEdits (utf8 source), Shape (utf8 source) e := fun e he => shape_of_ordered he
  obtain ⟨chars, hchars, -⟩ := marks_render hshape (orderedEdits_stop_le (utf8 source)) (utf8_toList source)
  refine ⟨String.ofList chars, ?_⟩
  rw [utf8_ofList, ← hchars]
  rfl

/-! ## The second run -/

/-- **Respelling again.** Every source is respelled, and its output again. The second run finds no keyword and no
member, and no import line where no line that begins with `le` is joined with the next one. If besides no line end
that a scan of the attribute rule minds goes away between `warna` and `agar`, the second run changes nothing just when
`varg` is nowhere an attribute name of the source. -/
theorem respell_again (source : String) (filename filename' : Option String) :
    ∃ out text again, respell source ⟨filename, false⟩ = .ok out ∧ utf8 text = out.code ∧
      respell text ⟨filename', false⟩ = .ok again ∧ Keyword.edits out.code = [] ∧ Member.edits out.code = [] ∧
      (LinesKept (utf8 source) → ImportLine.edits out.code = []) ∧
      (LinesKept (utf8 source) → ScansKept (utf8 source) →
        (again.code = out.code ↔ ∀ i, ¬ Attribute.ClassWord (utf8 source) i)) := by
  obtain ⟨out, hout, hcode⟩ := respell_plain source filename
  obtain ⟨text, htext⟩ := exists_text source
  obtain ⟨again, hagain, hcode'⟩ := respell_plain text filename'
  have hkeyword := keyword_edits_respelled (utf8 source)
  have hmember := member_edits_respelled (utf8 source)
  rw [htext] at hcode'
  rw [← hcode] at htext hcode' hkeyword hmember
  refine ⟨out, text, again, hout, htext, hagain, hkeyword, hmember, ?_, ?_⟩
  · intro hlines
    rw [hcode]
    exact import_edits_respelled hlines
  · intro hlines hscans
    have himport := import_edits_respelled hlines
    have hattribute := Attribute.attribute_edits_respelled_iff hscans
    rw [← hcode] at himport hattribute
    have hall : allEdits out.code = Attribute.edits out.code := by simp [allEdits, himport, hkeyword, hmember]
    rw [hcode', respelled_eq_self_iff, hall, hattribute]

/-- a pair that is joined and an import line: the second run changes nothing -/
theorem respell_again_joined :
    ∃ out text again, respell "warna agar\nle a se 'm'" .default = .ok out ∧ utf8 text = out.code ∧
      respell text .default = .ok again ∧ ImportLine.edits out.code = [] ∧ again.code = out.code := by
  have helse : ∀ b < 23, ∀ a < b, (utf8 "warna agar\nle a se 'm'").extract a b = elseWord → b = 5 := by decide +kernel
  have hif : ∀ m < 23, ∀ n < m, (utf8 "warna agar\nle a se 'm'").extract n m = ifWord → n = 6 := by decide +kernel
  have hvarg : ∀ i < 23, (utf8 "warna agar\nle a se 'm'").extract i (i + 4) ≠ utf8 "varg" := by decide +kernel
  have hsize : (utf8 "warna agar\nle a se 'm'").size = 22 := by decide +kernel
  have hspace : (utf8 "warna agar\nle a se 'm'")[5]? = some (ascii ' ') := by decide +kernel
  have hpair : ∀ {a b n m k : Nat}, Fused (utf8 "warna agar\nle a se 'm'") a b n m → b ≤ k → k < n → k = 5 := by
    intro a b n m k h h1 h2
    have hb := helse b (Nat.lt_succ_of_le (hsize ▸ h.word.le_size)) a h.word.lt h.text
    have hn := hif m (Nat.lt_succ_of_le (hsize ▸ h.next.le_size)) n h.next.lt h.nextText
    omega
  have hlines : LinesKept (utf8 "warna agar\nle a se 'm'") := by
    intro i a b n m _ hfused _ _ k h1 h2
    rw [hpair hfused h1 h2, hspace]
    decide
  have hscans : ScansKept (utf8 "warna agar\nle a se 'm'") := by
    intro a b n m hfused k h1 h2 hk
    rw [hpair hfused h1 h2, hspace] at hk
    exact absurd hk (by decide)
  obtain ⟨out, text, again, hout, htext, hagain, -, -, himport, hiff⟩ :=
    respell_again "warna agar\nle a se 'm'" none none
  refine ⟨out, text, again, hout, htext, hagain, himport hlines, (hiff hlines hscans).2 fun i h => ?_⟩
  have hi := h.word.le_size
  rw [hsize] at hi
  exact hvarg i (by omega) h.text

/-- the source is respelled as `text`, and `text` as `more`, which is another text -/
def ChangedAgain (source text more : String) : Prop :=
  ∃ out again, respell source .default = .ok out ∧ out.code = utf8 text ∧ respell text .default = .ok again ∧
    again.code = utf8 more ∧ again.code ≠ out.code

theorem changedAgain_of_respelled {source text more : String} (h : respelled (utf8 source) = utf8 text)
    (h' : respelled (utf8 text) = utf8 more) (hne : utf8 more ≠ utf8 text) : ChangedAgain source text more := by
  obtain ⟨out, hout, hcode⟩ := respell_plain source none
  obtain ⟨again, hagain, hcode'⟩ := respell_plain text none
  rw [h] at hcode
  rw [h'] at hcode'
  exact ⟨out, again, hout, hcode, hagain, hcode', by rwa [hcode, hcode']⟩

/-- three texts that the second run changes: an attribute name `varg`; a line that begins with `le` and is joined with
the next one; and a line end after what the attribute rule, but nothing else, reads as a comment -/
theorem respelled_twice :
    ChangedAgain "<b varg=x>" "<b class=x>" "<b className=x>" ∧
      ChangedAgain "le warna\nagar se 'm'" "le else if se 'm'" "import else if from 'm';" ∧
      ChangedAgain "<b \"\\\" \x7b//\" warna\nagar \x7b\n\x7d class=x" "<b \"\\\" \x7b//\" else if \x7b\n\x7d class=x"
        "<b \"\\\" \x7b//\" else if \x7b\n\x7d className=x" := by
  have hline : respelled (utf8 "le else if se 'm'") = utf8 "import else if from 'm';" := by
    have hedits : allEdits (utf8 "le else if se 'm'") =
        [⟨.importLine, 0, 2, "import"⟩, ⟨.importLine, 11, 13, "from"⟩, ⟨.importLine, 17, 17, ";"⟩] := by decide +kernel
    rw [respelled, orderedEdits, hedits, Edit.inOrder, List.mergeSort_of_pairwise (by decide)]
    decide +kernel
  refine ⟨?_, ?_, ?_⟩
  · exact changedAgain_of_respelled (by decide +kernel) (by decide +kernel) (by decide +kernel)
  · exact changedAgain_of_respelled (by decide +kernel) hline (by decide +kernel)
  · exact changedAgain_of_respelled (by decide +kernel) (by decide +kernel) (by decide +kernel)

end Respell
