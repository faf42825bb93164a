/-
Texts that respelling leaves as they are. Edits may make a text longer and shorter again, but the first of them shows:
the output has a byte that the source does not have there, or a word of the source ends early (`Shows`). This is a
matter of the vocabulary, where a word and its spelling part before either of them ends, or the longer one goes on as
a word (`Parts`, `vocabulary_parts`).

Main result, `respell_unchanged`: the output is the source just when no rule records an edit. This is so in a text
without the words of the vocabulary and without `class=`, and then every offset stays where it is.
-/
import Respell.Proofs.HostWords
import Respell.Proofs.ImportGrammar
import Respell.Proofs.Lines
import Respell.Proofs.MemberEdits
import Respell.Proofs.TagReader

namespace Respell

open Vocabulary

/-! ## A word and its spelling -/

/-- at some byte the two texts differ, or one has ended and the other goes on as a word -/
def Parts (word host : Bytes) : Prop :=
  ∃ k < min word.size host.size + 1, word[k]? ≠ host[k]? ∧ (word[k]? = none → host[k]?.any inWord = true) ∧
    (host[k]? = none → word[k]?.any inWord = true)

instance (word host : Bytes) : Decidable (Parts word host) := by unfold Parts; infer_instance

/-- **The vocabulary.** Every word parts from its spelling. -/
theorem vocabulary_parts : ∀ entry ∈ keywords ++ callees ++ members ++
    [("async_kaam", "async function"), ("async_kaam", "async"), ("le", "import")],
    Parts (utf8 entry.1) (utf8 entry.2) := by
  decide +kernel

theorem mem_vocabulary {table : Table} (htable : table ∈ [keywords, callees, members]) {entry : String × String}
    (h : entry ∈ table) : entry ∈ keywords ++ callees ++ members := by
  simp only [List.mem_cons, List.not_mem_nil, or_false] at htable
  rcases htable with rfl | rfl | rfl
  · exact List.mem_append_left _ (List.mem_append_left _ h)
  · exact List.mem_append_left _ (List.mem_append_right _ h)
  · exact List.mem_append_right _ h

theorem parts_of_spells {table : Table} (htable : table ∈ [keywords, callees, members]) {word : Bytes} {host : String}
    (h : Keyword.Spells table word host) : Parts word (utf8 host) := by
  obtain ⟨name, hmem, rfl⟩ := h
  exact vocabulary_parts (name, host) (List.mem_append_left _ (mem_vocabulary htable hmem))

/-! ## The first edit -/

/-- what an edit puts shows, if it is put where it stands in the source -/
inductive Shows (src : Bytes) (e : Edit) : Prop
  /-- some byte of its text is not the byte of the source -/
  | byte {k : Nat} {b : UInt8} (hb : (utf8 e.text)[k]? = some b) (hne : src[e.start + k]? ≠ some b)
  /-- its text ends where the word of the source goes on -/
  | early (hin : src[e.start + (utf8 e.text).size]?.any inWord = true) (hword : IsWord src e.start e.stop)

theorem shows_of_parts {src : Bytes} {rule : Rule} {i j : Nat} {host : String} (hw : IsWord src i j)
    (h : Parts (src.extract i j) (utf8 host)) : Shows src ⟨rule, i, j, host⟩ := by
  have hsize : (src.extract i j).size = j - i := by
    rw [Array.size_extract, Nat.min_eq_left hw.le_size]
  have hlt := hw.lt
  obtain ⟨k, hk, hne, hword, hhost⟩ := h
  have hget : k < j - i → src[i + k]? = (src.extract i j)[k]? := fun hk' => getElem?_of_extract rfl (hsize ▸ hk')
  cases hb : (utf8 host)[k]? with
  | none =>
    -- the spelling ends first
    have hin := hhost hb
    have hend : k = (utf8 host).size := by
      have := Array.getElem?_eq_none_iff.1 hb
      omega
    have hlt' : k < j - i := hsize ▸ lt_size_of_any hin
    rw [← hget hlt', hend] at hin
    exact .early hin hw
  | some b =>
    refine .byte hb ?_
    intro heq
    by_cases hlt' : k < j - i
    · exact hne ((hget hlt').symm.trans (heq.trans hb.symm))
    · -- the word ends first, and no word byte follows it
      have hin := hword (Array.getElem?_eq_none (by omega))
      obtain rfl : k = j - i := by omega
      have hafter := hw.after
      rw [Nat.add_sub_cancel' (Nat.le_of_lt hlt)] at heq
      rw [heq, ← hb, hin] at hafter
      cases hafter

/-- an edit of an import line is that of the word `le`, or stands behind it -/
theorem lineEdits_first {src : Bytes} {i : Nat} (hi : i + 2 ≤ src.size) {e : Edit}
    (he : e ∈ ImportLine.lineEdits src i) :
    ⟨.importLine, i, i + 2, "import"⟩ ∈ ImportLine.lineEdits src i ∧
      (e = ⟨.importLine, i, i + 2, "import"⟩ ∨ i < e.start) := by
  rcases lineEdits_cases hi with hnil | ⟨base, text, form, hbase, -, -, -, heq⟩
  · rw [hnil] at he
    cases he
  · obtain ⟨rest, hrest⟩ := form.edits_eq_cons i base
    obtain ⟨mid, p, hsub, hmid⟩ := formEdits_sublist form i base
    refine ⟨by rw [heq, hrest]; exact List.mem_cons_self, ?_⟩
    have hmem := hsub.subset (heq ▸ he)
    simp only [List.mem_cons, List.not_mem_nil, or_false] at hmem
    have hbehind : ∀ n, i < base + n := fun n =>
      Nat.lt_of_lt_of_le (Nat.lt_add_of_pos_right (by decide)) (Nat.le_trans hbase (Nat.le_add_right base n))
    rcases hmem with rfl | rfl | rfl
    · exact .inl rfl
    · cases form with
      | sideEffect => exact .inr (by rw [hmid.1]; exact hbehind _)
      | bindings => exact .inr (by rw [hmid.1]; exact hbehind _)
    · cases form with
      | sideEffect => exact .inr (by rw [hmid.2]; exact hbehind _)
      | bindings => exact .inr (by rw [hmid.2]; exact hbehind _)

theorem shows_of_keyword {src : Bytes} {e : Edit} (h : e ∈ Keyword.edits src) : Shows src e := by
  obtain ⟨i, j, last, host, hw, -, -, hsp, rfl⟩ := Keyword.mem_edits_iff.1 h
  cases hsp with
  | elseIf helse =>
    have hfirst : src[i]? = some (ascii 'w') := hw.getElem?_start helse
    have htext : (utf8 "else if")[0]? = some (ascii 'e') := by cbv
    exact .byte htext (by simp only [Nat.add_zero, hfirst]; decide)
  | asyncFunction _ hx =>
    exact shows_of_parts hw.toIsWord (hx ▸ vocabulary_parts ("async_kaam", "async function") (by simp))
  | async _ hx => exact shows_of_parts hw.toIsWord (hx ▸ vocabulary_parts ("async_kaam", "async") (by simp))
  | callee _ _ _ hs => exact shows_of_parts hw.toIsWord (parts_of_spells (by simp) hs)
  | keyword _ _ _ hs => exact shows_of_parts hw.toIsWord (parts_of_spells (by simp) hs)

theorem shows_of_attribute {src : Bytes} {e : Edit} (h : e ∈ Attribute.edits src) : Shows src e := by
  obtain ⟨x, hx, rfl⟩ := Attribute.mem_edits_iff.1 h
  have hequals : src[x + 5]? = some (ascii '=') := Attribute.getElem?_of_isClassMark hx.2 (by decide)
  have htext : (utf8 hostClassMark)[5]? = some (ascii 'N') := by cbv
  exact .byte htext (by simp only [hequals]; decide)

theorem shows_of_member {src : Bytes} {e : Edit} (h : e ∈ Member.edits src) : Shows src e := by
  obtain ⟨i, j, host, -, -, hw, hs, rfl⟩ := Member.mem_edits_iff.1 h
  exact shows_of_parts hw (parts_of_spells (by simp) hs)

/-- an edit shows, or another one stands before it -/
theorem shows_or_before {src : Bytes} {e : Edit} (h : e ∈ orderedEdits src) :
    Shows src e ∨ ∃ e' ∈ orderedEdits src, e'.start < e.start := by
  rcases mem_orderedEdits.1 h with himport | hkeyword | hattribute | hmember
  · obtain ⟨i, hopens, he⟩ := mem_import_iff.1 himport
    obtain ⟨hhead, rfl | hlt⟩ := lineEdits_first hopens.word.le_size he
    · exact .inl (shows_of_parts hopens.word (hopens.text ▸ vocabulary_parts ("le", "import") (by simp)))
    · exact .inr ⟨_, mem_orderedEdits.2 (.inl (mem_import_iff.2 ⟨i, hopens, hhead⟩)), hlt⟩
  · exact .inl (shows_of_keyword hkeyword)
  · exact .inl (shows_of_attribute hattribute)
  · exact .inl (shows_of_member hmember)

/-- up to the first edit, the output is the source -/
theorem seam_before_first {src : Bytes} {e : Edit} {rest : List Edit} (h : orderedEdits src = e :: rest) {p : Nat}
    (hp : p ≤ e.start) : Seam src p p (e :: rest) := by
  have hle : ∀ x ∈ e :: rest, e.start ≤ x.start := by
    intro x hx
    rcases List.mem_cons.1 hx with rfl | hx
    · exact Nat.le_refl _
    · have hshape := shape_of_ordered (h ▸ List.mem_cons_self : e ∈ orderedEdits src)
      have horder := orderedEdits_stop_le src
      rw [h] at horder
      exact Nat.le_trans hshape.le (List.rel_of_pairwise_cons horder hx)
  have hsize : e.start ≤ src.size := by
    have hshape := shape_of_ordered (h ▸ List.mem_cons_self : e ∈ orderedEdits src)
    exact Nat.le_trans hshape.le hshape.stop_le
  induction p with
  | zero => exact h ▸ Seam.start
  | succ p ih =>
    refine (ih (Nat.le_of_succ_le hp)).keep (Nat.lt_of_lt_of_le hp hsize) ?_
    intro x hx
    exact Nat.lt_of_lt_of_le hp (hle x hx)

/-- **The first edit shows.** A text that comes out as it is has no edits. -/
theorem orderedEdits_eq_nil {src : Bytes} (h : respelled src = src) : orderedEdits src = [] := by
  cases hedits : orderedEdits src with
  | nil => rfl
  | cons e rest =>
    exfalso
    have hseam := seam_before_first hedits (Nat.le_refl e.start)
    have hmem : e ∈ orderedEdits src := hedits ▸ List.mem_cons_self
    rcases shows_or_before hmem with hshows | ⟨e', he', hlt⟩
    · cases hshows with
      | @byte k b hb hne =>
        obtain ⟨hk, -⟩ := Array.getElem?_eq_some_iff.1 hb
        have hget := PutAt.get ⟨rest, hseam⟩ hk
        rw [h, hb] at hget
        exact hne hget
      | early hin hword =>
        obtain ⟨k, hk, hkw⟩ := hword.last
        have hout := hseam.put.not_inWord hword.after hk hkw
        rw [h, hin] at hout
        cases hout
    · rw [hedits] at he'
      rcases List.mem_cons.1 he' with rfl | he'
      · exact Nat.lt_irrefl _ hlt
      · have horder := orderedEdits_stop_le src
        rw [hedits] at horder
        have hle := Nat.le_trans (shape_of_ordered hmem).le (List.rel_of_pairwise_cons horder he')
        exact Nat.not_lt_of_le hle hlt

theorem respelled_of_nil {src : Bytes} (h : orderedEdits src = []) : respelled src = src := by
  apply Array.toList_inj.1
  rw [respelled, h, render_code, written_pieces_nil]
  simp

theorem orderedEdits_eq_nil_iff {src : Bytes} : orderedEdits src = [] ↔ allEdits src = [] := by
  have hperm := Edit.inOrder_perm (allEdits src)
  constructor
  · intro h
    rw [orderedEdits] at h
    rw [h] at hperm
    exact hperm.nil_eq.symm
  · intro h
    rw [h] at hperm
    rw [orderedEdits, h]
    exact hperm.eq_nil

theorem respelled_eq_self_iff {src : Bytes} : respelled src = src ↔ allEdits src = [] := by
  rw [← orderedEdits_eq_nil_iff]
  exact ⟨orderedEdits_eq_nil, respelled_of_nil⟩

/-! ## Texts without the vocabulary -/

/-- a keyword, a callee, a member, the mark of an asynchronous function, or the word that opens an import line -/
def InVocabulary (word : Bytes) : Prop :=
  (∃ entry ∈ keywords ++ callees ++ members, utf8 entry.1 = word) ∨ word = asyncWord ∨ word = importWord

instance (word : Bytes) : Decidable (InVocabulary word) := by unfold InVocabulary; infer_instance

theorem inVocabulary_of_spells {table : Table} (htable : table ∈ [keywords, callees, members]) {word : Bytes}
    {host : String} (h : Keyword.Spells table word host) : InVocabulary word := by
  obtain ⟨name, hmem, hname⟩ := h
  exact .inl ⟨(name, host), mem_vocabulary htable hmem, hname⟩

/-- no word of the text is in the vocabulary, and `class=` stands nowhere in it -/
structure Foreign (src : Bytes) : Prop where
  words : ∀ i j, IsWord src i j → ¬ InVocabulary (src.extract i j)
  mark : ∀ i, src.extract i (i + classMark.size) ≠ classMark

instance (src : Bytes) : Decidable (Foreign src) :=
  decidable_of_iff
    ((∀ i < src.size, ∀ j < src.size + 1, IsWord src i j → ¬ InVocabulary (src.extract i j)) ∧
      ∀ i < src.size, src.extract i (i + classMark.size) ≠ classMark)
    ⟨fun ⟨h1, h2⟩ => ⟨fun i j h => h1 i (Nat.lt_of_lt_of_le h.lt h.le_size) j (Nat.lt_succ_of_le h.le_size) h,
        fun i => by
          by_cases hi : i < src.size
          · exact h2 i hi
          · rw [Array.extract_empty_of_size_le_start (Nat.le_of_not_lt hi)]
            decide⟩,
      fun h => ⟨fun i _ j _ => h.words i j, fun i _ => h.mark i⟩⟩

theorem Foreign.allEdits_eq_nil {src : Bytes} (h : Foreign src) : allEdits src = [] := by
  rw [← orderedEdits_eq_nil_iff, List.eq_nil_iff_forall_not_mem]
  intro e he
  rcases mem_orderedEdits.1 he with himport | hkeyword | hattribute | hmember
  · obtain ⟨i, hopens, -⟩ := mem_import_iff.1 himport
    exact h.words _ _ hopens.word (.inr (.inr hopens.text))
  · obtain ⟨i, j, last, host, hw, -, -, hsp, rfl⟩ := Keyword.mem_edits_iff.1 hkeyword
    refine h.words i j hw.toIsWord ?_
    cases hsp with
    | elseIf helse =>
      have hwarna : Keyword.Spells keywords (src.extract i j) "else" := ⟨"warna", by decide, helse.symm⟩
      exact inVocabulary_of_spells (by simp) hwarna
    | asyncFunction _ hx => exact .inr (.inl hx)
    | async _ hx => exact .inr (.inl hx)
    | callee _ _ _ hs => exact inVocabulary_of_spells (by simp) hs
    | keyword _ _ _ hs => exact inVocabulary_of_spells (by simp) hs
  · obtain ⟨x, hx, rfl⟩ := Attribute.mem_edits_iff.1 hattribute
    have hmark := hx.2
    simp only [Attribute.isClassMark, Bool.and_eq_true, beq_iff_eq] at hmark
    exact h.mark x hmark.1
  · obtain ⟨i, j, host, -, -, hw, hs, rfl⟩ := Member.mem_edits_iff.1 hmember
    exact h.words _ _ hw (inVocabulary_of_spells (by simp) hs)

/-! ## Offsets -/

/-- one segment or none carries every offset to itself -/
theorem alignment_of_nil {src : Bytes} {k : Nat} (hk : k ≤ src.size) :
    (render src []).alignment.sourceOffset k = some k ∧ (render src []).alignment.outputOffset k = some k := by
  have hcode : (render src []).code.size = src.size := by
    rw [← Array.length_toList, render_code, written_pieces_nil]
    simp
  have houtput : (render src []).alignment.outputSize = src.size := hcode
  have hsource : (render src []).alignment.sourceSize = src.size := rfl
  rcases Nat.eq_or_lt_of_le hk with rfl | hlt
  · simp [Alignment.sourceOffset, Alignment.outputOffset, houtput, hsource]
  · have hsegments : (render src []).alignment.segments = #[⟨⟨0, src.size⟩, ⟨0, src.size⟩, true⟩] := by
      have hpos : 0 < src.size := Nat.zero_lt_of_lt hlt
      simp [render, pieces, Piece.keeping, hpos, layout, Piece.bytes, Piece.source, Piece.verbatim]
    have hbisect : ∀ p : Nat → Bool, p 0 = true → bisect p 0 1 = 1 := fun p hp =>
      bisect_eq (Nat.zero_le 1) (Nat.le_refl 1) (fun i hi => by rwa [Nat.lt_one_iff.1 hi])
        (fun i h1 h2 => absurd h2 (Nat.not_lt_of_le h1))
    have hseg : ∀ side : Segment → Span, (side ⟨⟨0, src.size⟩, ⟨0, src.size⟩, true⟩).start = 0 →
        (render src []).alignment.segmentAt? side k = some ⟨⟨0, src.size⟩, ⟨0, src.size⟩, true⟩ := by
      intro side hside
      simp only [Alignment.segmentAt?, hsegments]
      rw [show (#[(⟨⟨0, src.size⟩, ⟨0, src.size⟩, true⟩ : Segment)]).size = 1 from rfl, hbisect _ (by simp [hside])]
      rfl
    simp [Alignment.sourceOffset, Alignment.outputOffset, houtput, hsource, Nat.not_lt_of_le hk, Nat.ne_of_lt hlt,
      hseg Segment.output rfl, hseg Segment.source rfl]

/-! ## The whole -/

/-- **What stays as it is.** Every source is respelled; the output is the source just when no rule records an edit. In
particular it is the source, and every offset of either text goes to itself, if no word of the source is in the
vocabulary and `class=` stands nowhere in it. -/
theorem respell_unchanged (source : String) (filename : Option String) :
    ∃ out, respell source ⟨filename, false⟩ = .ok out ∧
      (out.code = utf8 source ↔ allEdits (utf8 source) = []) ∧
      (Foreign (utf8 source) → out.code = utf8 source ∧
        ∀ k ≤ (utf8 source).size,
          out.alignment.sourceOffset k = some k ∧ out.alignment.outputOffset k = some k) := by
  refine ⟨_, by simp only [respell, applyEdits_allEdits]; rfl, ?_⟩
  simp only [Bool.false_eq_true, if_false, Array.append_empty]
  refine ⟨respelled_eq_self_iff, ?_⟩
  intro hforeign
  have hnil := hforeign.allEdits_eq_nil
  refine ⟨respelled_eq_self_iff.2 hnil, ?_⟩
  intro k hk
  rw [orderedEdits_eq_nil_iff.2 hnil]
  exact alignment_of_nil hk

/-- near misses: a word with one byte more, a capital letter, `class` and `=` apart, and a letter outside ASCII -/
theorem respell_unchanged_near :
    Foreign (utf8 "le2 'é' De class =") ∧
      ∃ out, respell "le2 'é' De class =" ⟨none, false⟩ = .ok out ∧ out.code = utf8 "le2 'é' De class =" ∧
        ∀ k ≤ (utf8 "le2 'é' De class =").size,
          out.alignment.sourceOffset k = some k ∧ out.alignment.outputOffset k = some k := by
  have hforeign : Foreign (utf8 "le2 'é' De class =") := by decide +kernel
  obtain ⟨out, hout, -, hkept⟩ := respell_unchanged "le2 'é' De class =" none
  exact ⟨hforeign, out, hout, hkept hforeign⟩

end Respell
