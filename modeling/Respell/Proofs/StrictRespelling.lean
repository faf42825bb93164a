/-
A strict respelling. The four sweeps and the output of their edits are written with bounded operations alone: bytes and
ranges inside the text, texts between characters, counts in 32 bits, moves ahead, and edits whose ranges begin and end
between characters. Over every text of less than 2^32 bytes this run has a result, and it is what the respelling gives
(`respell_strictly`): no operation is ever outside its bounds, and the output is a text.
-/
import Respell.Proofs.StrictImports
import Respell.Proofs.SecondRun

namespace Respell

/-! ## A strict run -/

namespace Strict

def allEdits (src : Bytes) : Option (List Edit) := do
  let imports ← sweep src (importRule src) .start
  let keywords ← sweep src (keywordRule src) .start
  let attributes ← sweep src (attributeRule src) .start
  let members ← sweep src (memberRule src) .start
  return imports ++ keywords ++ attributes ++ members

end Strict

/-! ## Its result -/

theorem bounds_of_mem {src : Bytes} {cs : List Char} (hsrc : src.toList = cs.flatMap encode) {e : Edit}
    (he : e ∈ allEdits src) : e.start ≤ e.stop ∧ Boundary src e.start ∧ Boundary src e.stop :=
  ⟨(shape_of_mem he).le, (shape_of_mem he).boundary hsrc⟩

/-- a rule that relies on nothing but the scanner's own counts -/
theorem strict_sweep {src : Bytes} {cs : List Char} (hsrc : src.toList = cs.flatMap encode)
    (hsize : src.size < UInt32.size) {rule : Region → Nat → UInt8 → Finding}
    {strict : Region → Nat → Option (List Edit × List Nat)}
    (hrule : ∀ (s : Scanner) i t b, s.nextLive src = (some i, t) → src[i]? = some b →
      Strict.Follows src t (rule t.region i b) (strict t.region i))
    (hall : ∀ e ∈ sweep src rule .start, e ∈ allEdits src) :
    Strict.sweep src strict .start = some (sweep src rule .start) := by
  refine Strict.sweep_eq hsrc hsize (fun _ h => h) ?_ wellNested_start fun e he => bounds_of_mem hsrc (hall e he)
  intro s i t b h hn hb
  exact ⟨hrule s i t b hn hb, wellNested_skipTo (wellNested_of_nextLive h hn) src _⟩

theorem strict_allEdits {src : Bytes} {cs : List Char} (hsrc : src.toList = cs.flatMap encode)
    (hsize : src.size < UInt32.size) : Strict.allEdits src = some (allEdits src) := by
  have hall : ∀ e,
      ((e ∈ ImportLine.edits src ∨ e ∈ Keyword.edits src) ∨ e ∈ Attribute.edits src) ∨ e ∈ Member.edits src →
      e ∈ allEdits src := by
    intro e he
    simpa only [allEdits, List.mem_append] using he
  have himport : Strict.sweep src (Strict.importRule src) .start = some (ImportLine.edits src) :=
    strict_sweep hsrc hsize (fun _ _ _ _ hn hb => Strict.importRule_follows hn hb) fun e he =>
      hall e (.inl (.inl (.inl he)))
  have hkeyword : Strict.sweep src (Strict.keywordRule src) .start = some (Keyword.edits src) :=
    Strict.sweep_eq hsrc hsize (fun _ h => h.2) (fun _ _ _ _ h hn hb => Strict.keywordRule_follows hsrc h hn hb)
      ⟨Keyword.ready_start src, wellNested_start⟩ fun e he => bounds_of_mem hsrc (hall e (.inl (.inl (.inr he))))
  have hattribute : Strict.sweep src (Strict.attributeRule src) .start = some (Attribute.edits src) :=
    strict_sweep hsrc hsize (fun _ _ _ _ hn hb => Strict.attributeRule_follows hsrc hsize hn hb) fun e he =>
      hall e (.inl (.inr he))
  have hmember : Strict.sweep src (Strict.memberRule src) .start = some (Member.edits src) :=
    strict_sweep hsrc hsize (fun _ _ _ _ hn hb => Strict.memberRule_follows hsrc hn hb) fun e he => hall e (.inr he)
  unfold Strict.allEdits
  rw [himport, hkeyword, hattribute, hmember]
  rfl

/-- **A respelling stays in bounds.** Over every text of less than 2^32 bytes, well formed or not, the strict run has a
result. The four rules never read a byte or take a range outside the text, never cut a character, never count past 32
bits, never move back and record only edits that begin and end between characters; and no kept range cuts one. The run
gives the edits and the output of the respelling, so the output is a text. -/
theorem respell_strictly (source : String) (options : Options) (hsize : (utf8 source).size < UInt32.size) :
    ∃ out code, respell source options = .ok out ∧
      Strict.allEdits (utf8 source) = some (allEdits (utf8 source)) ∧
      (∀ e ∈ allEdits (utf8 source),
        e.start ≤ e.stop ∧ Boundary (utf8 source) e.start ∧ Boundary (utf8 source) e.stop) ∧
      Strict.render (utf8 source) 0 (Edit.inOrder (allEdits (utf8 source))) = some code ∧
      out.code = code ++ (if options.inlineMap then utf8 out.map.inlineComment else #[]) ∧
      ∃ text : String, utf8 text = out.code := by
  have hsrc := utf8_toList source
  have hbounds : ∀ e ∈ orderedEdits (utf8 source),
      Boundary (utf8 source) e.start ∧ Boundary (utf8 source) e.stop := fun e he => (shape_of_ordered he).boundary hsrc
  have hrender := Strict.render_eq (Strict.boundary_zero hsrc) hbounds
  rw [← render_code] at hrender
  obtain ⟨text, htext⟩ := exists_text source
  refine ⟨_, respelled (utf8 source), by simp only [respell, applyEdits_allEdits]; rfl, strict_allEdits hsrc hsize,
    fun e he => bounds_of_mem hsrc he, hrender, rfl, ?_⟩
  rcases options with ⟨filename, _ | _⟩
  · exact ⟨text, htext⟩
  · exact ⟨_, (utf8_append text _).trans (congrArg (· ++ _) htext)⟩

/-- an escaped character of two bytes, and braces in a hole and in a tag: what the strict run finds is what is
respelled -/
theorem respell_strictly_braces :
    (utf8 "`\\é$\x7b\x7btay\x7d\x7d` <b class=\x7b\x7b\x7d\x7d>").size < UInt32.size ∧
    allEdits (utf8 "`\\é$\x7b\x7btay\x7d\x7d` <b class=\x7b\x7b\x7d\x7d>") =
      [⟨.keyword, 7, 10, "const"⟩, ⟨.attribute, 17, 23, "className="⟩] ∧
    ∃ out, respell "`\\é$\x7b\x7btay\x7d\x7d` <b class=\x7b\x7b\x7d\x7d>" .default = .ok out ∧
      out.code = utf8 "`\\é$\x7b\x7bconst\x7d\x7d` <b className=\x7b\x7b\x7d\x7d>" := by
  have hsize : (utf8 "`\\é$\x7b\x7btay\x7d\x7d` <b class=\x7b\x7b\x7d\x7d>").size < UInt32.size := by decide
  have hstrict : Strict.allEdits (utf8 "`\\é$\x7b\x7btay\x7d\x7d` <b class=\x7b\x7b\x7d\x7d>") =
      some [⟨.keyword, 7, 10, "const"⟩, ⟨.attribute, 17, 23, "className="⟩] := by
    cbv
  have hwritten : Strict.render (utf8 "`\\é$\x7b\x7btay\x7d\x7d` <b class=\x7b\x7b\x7d\x7d>") 0
      (Edit.inOrder [⟨.keyword, 7, 10, "const"⟩, ⟨.attribute, 17, 23, "className="⟩]) =
      some (utf8 "`\\é$\x7b\x7bconst\x7d\x7d` <b className=\x7b\x7b\x7d\x7d>") := by
    cbv
  obtain ⟨out, code, hout, hedits, -, hrender, hcode, -⟩ :=
    respell_strictly "`\\é$\x7b\x7btay\x7d\x7d` <b class=\x7b\x7b\x7d\x7d>" .default hsize
  have hall := Option.some.inj (hedits.symm.trans hstrict)
  rw [hall] at hrender
  obtain rfl := Option.some.inj (hrender.symm.trans hwritten)
  exact ⟨hsize, hall, out, hout, hcode.trans Array.append_empty⟩

end Respell
