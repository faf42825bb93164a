/-
Line endings. A text with a carriage return in front of each line feed is respelled as the text is: each rule finds
the same edits at lifted offsets (`import_lift`, `keyword_lift`, `attribute_lift`, `member_lift`), no edit puts in a
line feed, and so the output is that of the text, with carriage returns (`respelled_crlf`).

This holds while no quoted string goes on behind an escaped line feed (`Unbroken`). A backslash takes one character,
and of a carriage return and a line feed it takes the first; the line feed then closes the string (`broken_strings`).
-/
import Respell.Proofs.LineEndScans
import Respell.Proofs.SecondRun

namespace Respell

open Vocabulary

def liftEdit (src : Bytes) (e : Edit) : Edit := { e with start := lift src e.start, stop := lift src e.stop }

/-! ## What stands after a word -/

namespace Keyword

variable {src : Bytes} {i j : Nat}

theorem joinedIf?_lift (hj : j ≤ src.size) : joinedIf? (crlf src) (lift src j) = (joinedIf? src j).map (lift src) := by
  have hstart : skipSpace src j ≤ src.size := skipWhile_le isSpace src j hj
  simp only [joinedIf?, skipSpace_lift, endOfWord_lift, extract_run src hstart]
  split_ifs <;> rfl

theorem isCalled_lift (src : Bytes) (j : Nat) : isCalled (crlf src) (lift src j) = isCalled src j := by
  rw [Bool.eq_iff_iff, isCalled, isCalled, beq_iff_eq, beq_iff_eq, skipSpace_lift, getElem?_lift,
    map_front_eq_some (by decide)]

theorem namesFunction_lift (src : Bytes) (j : Nat) : namesFunction (crlf src) (lift src j) = namesFunction src j := by
  simp only [namesFunction, skipSpace_lift, endOfWord_lift, isCalled_lift, getElem?_lift]
  rw [any_front (by decide)]

/-- **The spelling of a word** is the same, and replaces the same text. -/
theorem spelling?_lift (hw : IsWord src i j) :
    spelling? (crlf src) (lift src i) (lift src j) =
      (spelling? src i j).map fun found => (lift src found.1, found.2) := by
  have hj := hw.le_size
  simp only [spelling?, hw.extract_lift, joinedIf?_lift hj, namesFunction_lift, isCalled_lift,
    afterMemberDot_lift (Nat.le_trans (Nat.le_of_lt hw.lt) hj)]
  have hjoined : (if src.extract i j = elseWord then (joinedIf? src j).map (lift src) else none) =
      (if src.extract i j = elseWord then joinedIf? src j else none).map (lift src) := by
    split_ifs <;> rfl
  rw [hjoined]
  cases (if src.extract i j = elseWord then joinedIf? src j else none) with
  | some last => rfl
  | none =>
    simp only [Option.map_none]
    by_cases hasync : src.extract i j = asyncWord
    · simp only [if_pos hasync, Option.map_some]
    · simp only [if_neg hasync]
      cases (if !afterMemberDot src i && isCalled src j then callees.find? (src.extract i j) else none) with
      | some host => rfl
      | none =>
        simp only [Option.map_map]
        rfl

end Keyword

/-! ## Import lines and attribute names -/

def shiftEdit (d : Nat) (e : Edit) : Edit := { e with start := e.start + d, stop := e.stop + d }

theorem form_edits_shift (form : ImportLine.Form) (i base d : Nat) :
    form.edits (i + d) (base + d) = (form.edits i base).map (shiftEdit d) := by
  have hadd : ∀ a b, a + d + b = a + b + d := fun a b => Nat.add_right_comm a d b
  cases form with
  | sideEffect name mark closed => cases closed <;> simp [ImportLine.Form.edits, shiftEdit, Edit.insertion, hadd]
  | bindings mark name closed => cases closed <;> simp [ImportLine.Form.edits, shiftEdit, Edit.insertion, hadd]

/-- on the line of a word `le`, offsets are lifted by the same distance -/
theorem lift_line {src : Bytes} {i x : Nat} (hw : IsWord src i (i + 2)) (hi : i ≤ x)
    (hx : x ≤ skipWhile (fun b => !isLineEnd b) src (i + 2)) : lift src x = x + lineFeeds src i := by
  obtain ⟨n, rfl⟩ := Nat.exists_eq_add_of_le hi
  have hadd : lift src (i + n) = lift src i + n := by
    refine lift_add ?_
    intro k hk heq
    by_cases hword : k < 2
    · exact ne_lineFeed_of_inWord (hw.inside (i + k) (Nat.le_add_right i k) (Nat.add_lt_add_left hword i)) heq
    · have hpass := skipWhile_passes (Nat.add_le_add_left (Nat.le_of_not_lt hword) i)
        (Nat.lt_of_lt_of_le (Nat.add_lt_add_left hk i) hx)
      rw [heq] at hpass
      cases hpass
  rw [hadd, lift, Nat.add_right_comm]

theorem lift_importWord {src : Bytes} {i : Nat} (hw : IsWord src i (i + 2)) : lift src (i + 2) = lift src i + 2 := by
  rw [lift_line hw (Nat.le_add_right i 2) (le_skipWhile _ src (i + 2)), lift, Nat.add_right_comm]

/-- **An import line** has the same edits. -/
theorem lineEdits_lift {src : Bytes} {i : Nat} (hw : IsWord src i (i + 2)) (hx : src.extract i (i + 2) = importWord) :
    ImportLine.lineEdits (crlf src) (lift src i) = (ImportLine.lineEdits src i).map (liftEdit src) := by
  have hline := lineEdits_line hw hx
  have hsame : (ImportLine.lineEdits src i).map (liftEdit src) =
      (ImportLine.lineEdits src i).map (shiftEdit (lineFeeds src i)) := by
    refine List.map_congr_left ?_
    intro e he
    obtain ⟨h1, h2⟩ := hline.range e he
    have hle := (hline.shape e he).1.le
    rw [liftEdit, shiftEdit, lift_line hw h1 (Nat.le_trans hle h2), lift_line hw (Nat.le_trans h1 hle) h2]
  rw [hsame, ImportLine.lineEdits_eq, ImportLine.lineEdits_eq, ← lift_importWord hw, lineFrom_lift hw.le_size]
  generalize ImportLine.lineFrom src (i + 2) = line
  split_ifs with h0
  · rfl
  · cases ImportLine.body? (line.drop (ImportLine.blanks line)) with
    | none => rfl
    | some form =>
      have hbase : lift src (i + 2) + ImportLine.blanks line = i + 2 + ImportLine.blanks line + lineFeeds src i := by
        rw [lift_line hw (Nat.le_add_right i 2) (le_skipWhile _ src (i + 2)), Nat.add_right_comm]
      simp only
      rw [hbase, ← form_edits_shift, lift]

theorem isClassMark_lift (src : Bytes) (x : Nat) :
    Attribute.isClassMark (crlf src) (lift src x) = Attribute.isClassMark src x := by
  have hmark : (crlf src).extract (lift src x) (lift src x + classMark.size) = classMark ↔
      src.extract x (x + classMark.size) = classMark := extract_mark_iff (by decide)
  unfold Attribute.isClassMark
  by_cases hx : src.extract x (x + classMark.size) = classMark
  · have hbefore : ∀ {p : UInt8 → Bool}, p (ascii '\r') = p (ascii '\n') →
        (crlf src)[lift src x - 1]?.any p = src[x - 1]?.any p := by
      intro p hp
      cases x with
      | zero =>
        have hfirst := any_front hp src[0]?
        rwa [← getElem?_lift] at hfirst
      | succ k =>
        have hc : src[k + 1]? = classMark[0]? := getElem?_of_extract hx (k := 0) (by decide)
        have hlt : k < src.size := Nat.lt_of_succ_lt (Array.getElem?_eq_some_iff.1 hc).1
        obtain ⟨q, hq, hget⟩ := getElem?_before (Array.getElem?_eq_getElem hlt)
        rw [hq, Nat.add_sub_cancel, hget, Nat.add_sub_cancel, Array.getElem?_eq_getElem hlt]
    rw [hbefore (by decide), hmark.2 hx, hx]
  · rw [beq_eq_false_iff_ne.2 hx, beq_eq_false_iff_ne.2 fun heq => hx (hmark.1 heq)]
    rfl

theorem lift_classMark {src : Bytes} {x : Nat} (h : Attribute.isClassMark src x = true) :
    lift src (x + classMark.size) = lift src x + classMark.size := by
  refine lift_add ?_
  intro k hk heq
  rw [Attribute.getElem?_of_isClassMark h hk] at heq
  have hbytes : ∀ k < 6, classMark[k]? ≠ some (ascii '\n') := by decide
  exact hbytes k hk heq

/-! ## The four rules -/

section rules

variable {src : Bytes} {cs : List Char} (hsrc : src.toList = cs.flatMap encode) (h : Unbroken src)
include hsrc h

theorem liveAt_word {i j : Nat} (hw : IsWord src i j) : liveAt (crlf src) (lift src i) = liveAt src i := by
  obtain ⟨b, hb, hin⟩ := (Option.any_eq_true _ _).1 hw.first
  refine liveAt_lift hsrc h hb ?_
  rintro rfl
  cases hin

theorem liveWord_lift_iff {i j : Nat} (hw : IsWord src i j) :
    LiveWord (crlf src) (lift src i) (lift src j) ↔ LiveWord src i j := by
  have hlive : Live (crlf src) (lift src i) ↔ Live src i := by
    rw [live_iff, live_iff, liveAt_word hsrc h hw]
  exact ⟨fun hl => ⟨hw, hlive.1 hl.live⟩, fun hl => ⟨isWord_lift hw, hlive.2 hl.live⟩⟩

theorem swallowed_lift_iff {i j : Nat} (hw : IsWord src i j) :
    Keyword.Swallowed (crlf src) (lift src i) (lift src j) ↔ Keyword.Swallowed src i j := by
  unfold Keyword.Swallowed
  rw [hw.extract_lift]
  refine and_congr_right fun _ => ⟨?_, ?_⟩
  · rintro ⟨a, b, hab, helse, hgap⟩
    obtain ⟨a, b, rfl, rfl, hword⟩ := exists_word hab.toIsWord
    rw [hword.extract_lift] at helse
    exact ⟨a, b, (liveWord_lift_iff hsrc h hword).1 hab, helse, (gap_lift_iff hw).1 hgap⟩
  · rintro ⟨a, b, hab, helse, hgap⟩
    refine ⟨lift src a, lift src b, (liveWord_lift_iff hsrc h hab.toIsWord).2 hab, ?_, (gap_lift_iff hw).2 hgap⟩
    rw [hab.toIsWord.extract_lift, helse]

theorem keyword_lift (e : Edit) :
    e ∈ Keyword.edits (crlf src) ↔ e ∈ (Keyword.edits src).map (liftEdit src) := by
  rw [Keyword.mem_edits_iff, List.mem_map]
  simp only [Keyword.mem_edits_iff]
  refine ⟨?_, ?_⟩
  · rintro ⟨a, b, last, host, hword, hopens, hno, hspelled, rfl⟩
    obtain ⟨i, j, rfl, rfl, hw⟩ := exists_word hword.toIsWord
    rw [← Keyword.spelling?_eq_some_iff hword.after, Keyword.spelling?_lift hw] at hspelled
    obtain ⟨⟨stop, host⟩, hfound, heq⟩ := Option.map_eq_some_iff.1 hspelled
    cases heq
    rw [getElem?_lift, any_front (by decide)] at hopens
    rw [swallowed_lift_iff hsrc h hw] at hno
    exact ⟨⟨.keyword, i, stop, host⟩, ⟨i, j, stop, host, (liveWord_lift_iff hsrc h hw).1 hword, hopens, hno,
      (Keyword.spelling?_eq_some_iff hw.after).1 hfound, rfl⟩, rfl⟩
  · rintro ⟨_, ⟨i, j, last, host, hword, hopens, hno, hspelled, rfl⟩, rfl⟩
    have hw := hword.toIsWord
    refine ⟨lift src i, lift src j, lift src last, host, (liveWord_lift_iff hsrc h hw).2 hword, ?_, ?_, ?_, rfl⟩
    · rw [getElem?_lift, any_front (by decide)]
      exact hopens
    · rwa [swallowed_lift_iff hsrc h hw]
    · rw [← Keyword.spelling?_eq_some_iff (isWord_lift hw).after, Keyword.spelling?_lift hw,
        (Keyword.spelling?_eq_some_iff hw.after).2 hspelled]
      rfl

theorem member_lift (e : Edit) : e ∈ Member.edits (crlf src) ↔ e ∈ (Member.edits src).map (liftEdit src) := by
  rw [Member.mem_edits_iff, List.mem_map]
  simp only [Member.mem_edits_iff]
  have hlive : ∀ {k : Nat}, src[k]? = some (ascii '.') → (Live (crlf src) (lift src k) ↔ Live src k) := by
    intro k hk
    rw [live_iff, live_iff, liveAt_lift hsrc h hk (by decide)]
  refine ⟨?_, ?_⟩
  · rintro ⟨a, b, host, hlives, hdot, hword, hspells, rfl⟩
    obtain ⟨k, rfl, hk⟩ := exists_of_get (Keyword.isMemberDot_dot hdot) (by decide)
    rw [← lift_succ hk (by decide)] at hword hspells ⊢
    obtain ⟨i, j, hi, rfl, hw⟩ := exists_word hword
    obtain rfl := lift_inj.1 hi
    rw [hw.extract_lift] at hspells
    rw [isMemberDot_lift] at hdot
    exact ⟨⟨.member, k + 1, j, host⟩, ⟨k, j, host, (hlive hk).1 hlives, hdot, hw, hspells, rfl⟩, rfl⟩
  · rintro ⟨_, ⟨k, j, host, hlives, hdot, hw, hspells, rfl⟩, rfl⟩
    have hk := Keyword.isMemberDot_dot hdot
    have hsucc := lift_succ hk (by decide)
    refine ⟨lift src k, lift src j, host, (hlive hk).2 hlives, ?_, ?_, ?_, ?_⟩
    · rwa [isMemberDot_lift]
    · rw [← hsucc]
      exact isWord_lift hw
    · rwa [← hsucc, hw.extract_lift]
    · rw [← hsucc]
      rfl

theorem attribute_lift (e : Edit) : e ∈ Attribute.edits (crlf src) ↔ e ∈ (Attribute.edits src).map (liftEdit src) := by
  rw [Attribute.mem_edits_iff, List.mem_map]
  simp only [Attribute.mem_edits_iff]
  refine ⟨?_, ?_⟩
  · rintro ⟨a, ⟨hreading, hmark⟩, rfl⟩
    obtain ⟨x, rfl, -⟩ := exists_of_get (Attribute.getElem?_of_isClassMark hmark (by decide : 0 < 6)) (by decide)
    rw [readerAt_lift hsrc h] at hreading
    rw [isClassMark_lift] at hmark
    refine ⟨_, ⟨x, ⟨hreading, hmark⟩, rfl⟩, ?_⟩
    rw [liftEdit, lift_classMark hmark]
  · rintro ⟨_, ⟨x, ⟨hreading, hmark⟩, rfl⟩, rfl⟩
    refine ⟨lift src x, ⟨?_, ?_⟩, ?_⟩
    · rwa [readerAt_lift hsrc h]
    · rwa [isClassMark_lift]
    · rw [liftEdit, lift_classMark hmark]

theorem import_lift (e : Edit) : e ∈ ImportLine.edits (crlf src) ↔ e ∈ (ImportLine.edits src).map (liftEdit src) := by
  rw [mem_import_iff, List.mem_map]
  simp only [mem_import_iff]
  refine ⟨?_, ?_⟩
  · rintro ⟨a, hopens, he⟩
    obtain ⟨i, j, rfl, hj, hw⟩ := exists_word hopens.word
    have htext := hopens.text
    rw [hj, hw.extract_lift] at htext
    obtain rfl : j = i + 2 := by
      have hsize := congrArg Array.size htext
      rw [Array.size_extract, Nat.min_eq_left hw.le_size, show importWord.size = 2 by decide] at hsize
      have hlt := hw.lt
      omega
    have hi : i ≤ src.size := Nat.le_trans (Nat.le_of_lt hw.lt) hw.le_size
    rw [lineEdits_lift hw htext, List.mem_map] at he
    obtain ⟨e', he', rfl⟩ := he
    refine ⟨e', ⟨i, ⟨hw, htext, ?_, ?_⟩, he'⟩, rfl⟩
    · rw [← liveAt_word hsrc h hw]
      exact hopens.live
    · rw [← opensLine_lift hi]
      exact hopens.opens
  · rintro ⟨e', ⟨i, hopens, he'⟩, rfl⟩
    have hw := hopens.word
    have hi : i ≤ src.size := Nat.le_trans (Nat.le_of_lt hw.lt) hw.le_size
    refine ⟨lift src i, ⟨?_, ?_, ?_, ?_⟩, ?_⟩
    · rw [← lift_importWord hw]
      exact isWord_lift hw
    · rw [← lift_importWord hw, hw.extract_lift]
      exact hopens.text
    · rw [liveAt_word hsrc h hw]
      exact hopens.live
    · rw [opensLine_lift hi]
      exact hopens.opens
    · rw [lineEdits_lift hw hopens.text]
      exact List.mem_map_of_mem he'

theorem allEdits_lift (e : Edit) : e ∈ allEdits (crlf src) ↔ e ∈ (allEdits src).map (liftEdit src) := by
  simp only [allEdits, List.mem_append, List.map_append, import_lift hsrc h, keyword_lift hsrc h, attribute_lift hsrc h,
    member_lift hsrc h]

end rules

/-! ## Outputs -/

theorem liftEdit_injective (src : Bytes) : Function.Injective (liftEdit src) := by
  rintro ⟨rule, start, stop, text⟩ ⟨rule', start', stop', text'⟩ heq
  simp only [liftEdit, Edit.mk.injEq, lift_inj] at heq
  obtain ⟨rfl, rfl, rfl, rfl⟩ := heq
  rfl

theorem nodup_allEdits (src : Bytes) : (allEdits src).Nodup := by
  refine (allEdits_apart src).imp ?_
  rintro a b hapart rfl
  exact hapart.2 rfl

theorem orderedEdits_lift {src : Bytes} {cs : List Char} (hsrc : src.toList = cs.flatMap encode) (h : Unbroken src) :
    orderedEdits (crlf src) = (orderedEdits src).map (liftEdit src) := by
  have hperm : ((allEdits src).map (liftEdit src)).Perm (allEdits (crlf src)) := by
    refine (List.perm_ext_iff_of_nodup ?_ (nodup_allEdits _)).2 fun e => (allEdits_lift hsrc h e).symm
    exact (nodup_allEdits src).map (liftEdit_injective src)
  rw [orderedEdits, ← Edit.inOrder_eq_of_perm (allEdits_apart _) hperm, orderedEdits]
  refine (List.map_mergeSort ?_).symm
  intro a _ b _
  have hmono := lift_strictMono src
  simp only [Edit.precedes, liftEdit, hmono.lt_iff_lt, hmono.le_iff_le, beq_eq_decide, lift_inj]

/-- what edits write at lifted offsets: the same, with carriage returns -/
theorem written_lift {src : Bytes} {p : Nat} {edits : List Edit} (hp : p ≤ src.size)
    (hedits : ∀ e ∈ edits, e.start ≤ src.size ∧ e.stop ≤ src.size ∧ ∀ b ∈ (utf8 e.text).toList, b ≠ ascii '\n') :
    written (crlf src) (pieces (crlf src) (lift src p) (edits.map (liftEdit src))) =
      (written src (pieces src p edits)).flatMap returned := by
  induction edits generalizing p with
  | nil => rw [List.map_nil, written_pieces_nil, written_pieces_nil, size_crlf, extract_lift (Nat.le_refl _)]
  | cons e rest ih =>
    obtain ⟨hstart, hstop, htext⟩ := hedits e List.mem_cons_self
    have ih := ih hstop fun x hx => hedits x (List.mem_cons_of_mem e hx)
    rw [List.map_cons, written_pieces_cons, written_pieces_cons]
    simp only [liftEdit, List.flatMap_append, extract_lift hstart, returned_self htext]
    rw [← ih]

theorem respelled_crlf {src : Bytes} {cs : List Char} (hsrc : src.toList = cs.flatMap encode) (h : Unbroken src) :
    respelled (crlf src) = crlf (respelled src) := by
  have hedits : ∀ e ∈ orderedEdits src,
      e.start ≤ src.size ∧ e.stop ≤ src.size ∧ ∀ b ∈ (utf8 e.text).toList, b ≠ ascii '\n' := by
    intro e he
    have hs := shape_of_ordered he
    refine ⟨Nat.le_trans hs.le hs.stop_le, hs.stop_le, ?_⟩
    rintro b hb rfl
    have hinert := Array.all_eq_true'.1 hs.text_inert _ (Array.mem_toList_iff.1 hb)
    exact absurd hinert (by decide)
  apply Array.toList_inj.1
  calc (respelled (crlf src)).toList
      = written (crlf src) (pieces (crlf src) 0 (orderedEdits (crlf src))) := render_code _ _
    _ = written (crlf src) (pieces (crlf src) (lift src 0) ((orderedEdits src).map (liftEdit src))) := by
      rw [orderedEdits_lift hsrc h, lift_zero]
    _ = (written src (pieces src 0 (orderedEdits src))).flatMap returned := written_lift (Nat.zero_le _) hedits
    _ = (crlf (respelled src)).toList := by
      rw [← render_code]
      rfl

/-- **Line endings do not matter.** A source whose lines end in a carriage return and a line feed is respelled as the
source whose lines end in a line feed, and its output has the same line ends, if no quoted string of the source goes
on behind an escaped line feed. -/
theorem respell_crlf (source : String) (filename : Option String) (h : Unbroken (utf8 source)) :
    ∃ out out' text, respell source ⟨filename, false⟩ = .ok out ∧
      respell (crlfText source) ⟨filename, false⟩ = .ok out' ∧
      out.code = utf8 text ∧ out'.code = utf8 (crlfText text) := by
  obtain ⟨out, hout, hcode⟩ := respell_plain source filename
  obtain ⟨out', hout', hcode'⟩ := respell_plain (crlfText source) filename
  obtain ⟨text, htext⟩ := exists_text source
  refine ⟨out, out', text, hout, hout', hcode.trans htext.symm, ?_⟩
  rw [hcode', utf8_crlfText, respelled_crlf (utf8_toList source) h, ← htext, utf8_crlfText]

/-- an import line, words joined across a line end, and line feeds in a comment, a value and an escape of a template -/
theorem respell_crlf_mixed :
    Unbroken (utf8 "le 'm' se\nwarna\nagar (x) `\\\n` /*\n*/ <b a='\n' class=c>") ∧
      ∃ out out' text,
        respell "le 'm' se\nwarna\nagar (x) `\\\n` /*\n*/ <b a='\n' class=c>" ⟨none, false⟩ = .ok out ∧
        respell (crlfText "le 'm' se\nwarna\nagar (x) `\\\n` /*\n*/ <b a='\n' class=c>") ⟨none, false⟩ = .ok out' ∧
        out.code = utf8 text ∧ out'.code = utf8 (crlfText text) := by
  have h : Unbroken (utf8 "le 'm' se\nwarna\nagar (x) `\\\n` /*\n*/ <b a='\n' class=c>") := by decide +kernel
  exact ⟨h, respell_crlf _ none h⟩

/-- the outputs of a text with line feeds and of the text with carriage returns, the second not the first with carriage
returns -/
def Diverges (source code code' : String) : Prop :=
  ∃ out out', respell source .default = .ok out ∧ out.code = utf8 code ∧
    respell (crlfText source) .default = .ok out' ∧ out'.code = utf8 code' ∧ out'.code ≠ utf8 (crlfText code)

theorem diverges_of_respelled {source code code' : String} (h : respelled (utf8 source) = utf8 code)
    (h' : respelled (utf8 (crlfText source)) = utf8 code') (hne : utf8 code' ≠ utf8 (crlfText code)) :
    Diverges source code code' := by
  obtain ⟨out, hout, hcode⟩ := respell_plain source none
  obtain ⟨out', hout', hcode'⟩ := respell_plain (crlfText source) none
  refine ⟨out, out', hout, hcode.trans h, hout', hcode'.trans h', ?_⟩
  rwa [hcode', h']

/-- two texts with an escaped line feed in a string: a string of the walk, behind whose first line the rest becomes
code; and a string that the attribute rule's scan alone reads as one, in which the end of a brace expression is
lost -/
theorem broken_strings :
    Diverges "'\\\nde'" "'\\\nde'" "'\\\r\nreturn'" ∧
      Diverges "<a //\x7b'\\\n'\x7d class=x>" "<a //\x7b'\\\n'\x7d className=x>" "<a //\x7b'\\\r\n'\x7d class=x>" :=
  ⟨diverges_of_respelled (by decide +kernel) (by decide +kernel) (by decide +kernel),
    diverges_of_respelled (by decide +kernel) (by decide +kernel) (by decide +kernel)⟩

end Respell
