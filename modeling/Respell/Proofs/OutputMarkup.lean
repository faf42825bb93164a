/-
Markup in an output. A text holds markup if a letter stands directly behind a `<`, in a comment or a string too. No edit
takes out a `<` or puts one, and what stands behind a `<` stays a letter or stays none, so an output holds markup just
when its source does (`holdsMarkup_respelled`). A map that is appended brings none, since base64 has no `<`
(`holdsMarkup_dataUrl`), and the name of a map brings what it holds itself (`holdsMarkup_comment`).

Main result, `extension_of_output`: build and check choose the extension by the source, and it is the one that the
output calls for.
-/
import Respell.Proofs.Base64Decoding
import Respell.Proofs.Deliveries
import Respell.Proofs.OutputOffsets
import Respell.Proofs.OutputTags

namespace Respell

theorem holdsMarkup_iff {src : Bytes} :
    holdsMarkup src = true ↔ ∃ i, src[i]? = some (ascii '<') ∧ src[i + 1]?.any isLetter = true := by
  simp only [holdsMarkup, List.any_eq_true, List.mem_range, Bool.and_eq_true, beq_iff_eq]
  constructor
  · intro h
    obtain ⟨i, -, h⟩ := h
    exact ⟨i, h⟩
  · intro h
    obtain ⟨i, h⟩ := h
    exact ⟨i, (Array.getElem?_eq_some_iff.1 h.1).1, h⟩

/-! ## Along the output -/

section respelled

variable {src : Bytes} {p q : Nat}

theorem kept_of_open (hq : (respelled src)[q]? = some (ascii '<')) : ∃ p, Kept src p q := by
  obtain ⟨hlt, -⟩ := Array.getElem?_eq_some_iff.1 hq
  rcases origin hlt with hkept | ⟨e, q', hput, h1, h2⟩
  · exact hkept
  · obtain ⟨k, rfl⟩ := Nat.exists_eq_add_of_le h1
    have hk : k < (utf8 e.text).size := Nat.lt_of_add_lt_add_left h2
    have hquiet := Array.all_eq_true.1 hput.hostText.quiet k hk
    rw [hput.get hk, Array.getElem?_eq_getElem hk] at hq
    rw [Option.some.inj hq] at hquiet
    exact absurd hquiet (by decide)

/-- what stands behind a kept `<` is a letter in both texts or in none -/
theorem Kept.letter_behind (h : Kept src p q) (hb : src[p]? = some (ascii '<')) :
    (respelled src)[q + 1]?.any isLetter = src[p + 1]?.any isLetter := by
  rcases h.behind_open hb with hsame | ⟨htext, hsource⟩
  · rw [hsame]
  · rw [htext, hsource]

/-- **Markup is kept**: an output holds markup just when its source does. -/
theorem holdsMarkup_respelled (src : Bytes) : holdsMarkup (respelled src) = holdsMarkup src := by
  rw [Bool.eq_iff_iff, holdsMarkup_iff, holdsMarkup_iff]
  constructor
  · intro h
    obtain ⟨q, hq, hletter⟩ := h
    obtain ⟨p, hkept⟩ := kept_of_open hq
    have hp := hkept.get.symm.trans hq
    exact ⟨p, hp, (hkept.letter_behind hp).symm.trans hletter⟩
  · intro h
    obtain ⟨p, hp, hletter⟩ := h
    obtain ⟨q, hkept⟩ := exists_kept hp (by decide) (by decide)
    exact ⟨q, hkept.get.trans hp, (hkept.letter_behind hp).trans hletter⟩

end respelled

/-! ## With a trailer -/

/-- two texts side by side hold the markup of each, if none arises between them -/
theorem holdsMarkup_append {code trailer : Bytes}
    (hjoin : ∀ k, k + 1 = code.size → code[k]? = some (ascii '<') → trailer[0]?.any isLetter = false) :
    holdsMarkup (code ++ trailer) = (holdsMarkup code || holdsMarkup trailer) := by
  rw [Bool.eq_iff_iff, Bool.or_eq_true, holdsMarkup_iff, holdsMarkup_iff, holdsMarkup_iff]
  constructor
  · intro h
    obtain ⟨i, hopen, hletter⟩ := h
    -- both bytes lie in the first text, one in each, or both in the second
    rcases Nat.lt_trichotomy (i + 1) code.size with hlt | heq | hgt
    · rw [Array.getElem?_append_left (Nat.lt_of_succ_lt hlt)] at hopen
      rw [Array.getElem?_append_left hlt] at hletter
      exact .inl ⟨i, hopen, hletter⟩
    · rw [Array.getElem?_append_left (heq ▸ Nat.lt_succ_self i)] at hopen
      rw [Array.getElem?_append_right (Nat.le_of_eq heq.symm), heq, Nat.sub_self, hjoin i heq hopen] at hletter
      cases hletter
    · have hle : code.size ≤ i := Nat.le_of_lt_succ hgt
      rw [Array.getElem?_append_right hle] at hopen
      rw [Array.getElem?_append_right (Nat.le_of_lt hgt), Nat.sub_add_comm hle] at hletter
      exact .inr ⟨_, hopen, hletter⟩
  · intro h
    rcases h with ⟨i, hopen, hletter⟩ | ⟨i, hopen, hletter⟩
    · have hlt := lt_size_of_any hletter
      refine ⟨i, ?_, ?_⟩
      · rw [Array.getElem?_append_left (Nat.lt_of_succ_lt hlt), hopen]
      · rw [Array.getElem?_append_left hlt, hletter]
    · refine ⟨code.size + i, ?_, ?_⟩
      · rw [Array.getElem?_append_right (Nat.le_add_right _ _), Nat.add_sub_cancel_left, hopen]
      · rw [Nat.add_assoc, Array.getElem?_append_right (Nat.le_add_right _ _), Nat.add_sub_cancel_left, hletter]

theorem utf8_comment (url : String) :
    utf8 (SourceMap.comment url) = utf8 "\n//# sourceMappingURL=" ++ utf8 url := utf8_append _ _

theorem holdsMarkup_comment (code : Bytes) (url : String) :
    holdsMarkup (code ++ utf8 (SourceMap.comment url)) = (holdsMarkup code || holdsMarkup (utf8 url)) := by
  have hhead : (utf8 "\n//# sourceMappingURL=")[0]? = some (ascii '\n') ∧
      (utf8 "\n//# sourceMappingURL=")[21]? = some (ascii '=') ∧ (utf8 "\n//# sourceMappingURL=").size = 22 ∧
      holdsMarkup (utf8 "\n//# sourceMappingURL=") = false := by decide +kernel
  rw [utf8_comment]
  generalize utf8 "\n//# sourceMappingURL=" = head at hhead ⊢
  obtain ⟨hfirst, hlast, hsize, hnone⟩ := hhead
  rw [holdsMarkup_append, holdsMarkup_append, hnone, Bool.false_or]
  · intro k hk hopen
    obtain rfl : k = 21 := Nat.succ.inj (hk.trans hsize)
    rw [hlast] at hopen
    exact absurd hopen (by decide)
  · intro _ _ _
    rw [Array.getElem?_append_left (by rw [hsize]; decide), hfirst]
    decide

/-- an ASCII character among the bytes of a text is one of its characters -/
theorem mem_of_ascii_mem {text : String} {c : Char} (hc : c.toNat < 128) (h : ascii c ∈ utf8 text) :
    c ∈ text.toList := by
  rw [← Array.mem_toList_iff, utf8_toList, List.mem_flatMap] at h
  obtain ⟨d, hd, hmem⟩ := h
  exact ascii_mem_encode hc hmem ▸ hd

theorem toList_dataUrl (map : SourceMap) : map.dataUrl.toList =
    "data:application/json;charset=utf-8;base64,".toList ++ Base64.encode (utf8 map.toJson).toList := by
  refine String.toList_append.trans (congrArg _ ?_)
  exact String.toList_ofList

theorem holdsMarkup_dataUrl (map : SourceMap) : holdsMarkup (utf8 map.dataUrl) = false := by
  rw [Bool.eq_false_iff]
  intro h
  obtain ⟨i, hopen, -⟩ := holdsMarkup_iff.1 h
  have hmem := mem_of_ascii_mem (by decide) (Array.mem_of_getElem? hopen)
  rw [toList_dataUrl, List.mem_append] at hmem
  rcases hmem with hmem | hmem
  · exact absurd hmem (by simp)
  · have hwritten := List.all_eq_true.1 (Base64.all_isWritten _) _ hmem
    exact absurd hwritten (by decide)

/-- with the map appended or not, an output holds markup just when its source does -/
theorem holdsMarkup_output (source : String) (options : Options) :
    ∃ out, respell source options = .ok out ∧ holdsMarkup out.code = holdsMarkup (utf8 source) := by
  obtain ⟨filename, inlineMap⟩ := options
  obtain ⟨out, hout, hcode⟩ := respell_plain source filename
  refine ⟨_, respell_inline hout inlineMap, ?_⟩
  cases inlineMap with
  | false =>
    simp only [Bool.false_eq_true, if_false, Array.append_empty, hcode]
    exact holdsMarkup_respelled _
  | true =>
    simp only [if_true, hcode, SourceMap.inlineComment]
    rw [holdsMarkup_comment, holdsMarkup_dataUrl, Bool.or_false, holdsMarkup_respelled]

/-- what a build does with a respelled source: its map is written beside the output if the settings ask for it, and then
the output with its trailer -/
def Job.deliver (job : Job) (output : String) (result : Respelling) : Action Unit := do
  let mapPath := Path.mapFile output
  if job.settings.sourceMaps then
    Action.change (Disk.write · mapPath (utf8 result.map.toJson)) (.file .write mapPath)
  let trailer :=
    if job.settings.sourceMaps && !job.settings.inlineMap then
      (Path.fileName? mapPath).elim #[] fun name => utf8 (SourceMap.comment name)
    else #[]
  Action.change (Disk.write · output (result.code ++ trailer)) (.file .write output)

/-- **The extension of an output.** Every source, with any options, is respelled to an output that holds markup just
when the source does, and a comment that names a map adds no markup but what the name holds. So a build writes each
source as if it chose the extension by the output, and so does a check read it. -/
theorem extension_of_output :
    (∀ source options, ∃ out, respell source options = .ok out ∧ holdsMarkup out.code = holdsMarkup (utf8 source) ∧
      ∀ name, holdsMarkup (out.code ++ utf8 (SourceMap.comment name)) =
        (holdsMarkup (utf8 source) || holdsMarkup (utf8 name))) ∧
    (∀ (job : Job) path relative dest, job.buildSource path relative dest = do
      let source ← Action.ask (Disk.readText · path) (.file .read path)
      let result ← match respell source ⟨some relative, job.settings.inlineMap⟩ with
        | .ok result => pure result
        | .error overlap => throw (.overlapIn path overlap)
      job.deliver (Path.withExtension dest sourceExtension (outputExtension result.code)) result) ∧
    ∀ accepts root settings, check accepts root settings =
      check (fun _ code => accepts (outputExtension code) code) root settings := by
  have hext : ∀ source options, ∃ out, respell source options = .ok out ∧
      outputExtension out.code = outputExtension (utf8 source) := by
    intro source options
    obtain ⟨out, hout, hmarkup⟩ := holdsMarkup_output source options
    exact ⟨out, hout, by rw [outputExtension, outputExtension, hmarkup]⟩
  refine ⟨?_, ?_, ?_⟩
  · intro source options
    obtain ⟨out, hout, hmarkup⟩ := holdsMarkup_output source options
    refine ⟨out, hout, hmarkup, fun name => ?_⟩
    rw [holdsMarkup_comment, hmarkup]
  · intro job path relative dest
    unfold Job.buildSource
    refine congrArg _ (funext fun source => ?_)
    obtain ⟨out, hout, hsame⟩ := hext source ⟨some relative, job.settings.inlineMap⟩
    simp only [hout, pure_bind, hsame, Job.deliver]
    generalize Path.withExtension dest sourceExtension (outputExtension (utf8 source)) = output
    cases Path.fileName? (Path.mapFile output) with
    | none => rfl
    | some name => rfl
  · intro accepts root settings
    unfold check
    refine congrArg _ (funext fun paths => ?_)
    refine congrArg (fun step => paths.foldlM step 0) (funext fun refused => funext fun path => ?_)
    refine congrArg _ (funext fun source => ?_)
    obtain ⟨out, hout, hsame⟩ := hext source ⟨some path, false⟩
    simp only [hout, hsame]

end Respell
