/-
What the import rule makes of a text. A line is rewritten part by part: `LineRewrite` says what becomes of a side
effect, of the bindings whose `se` comes first, or of a line that is neither, and with which edits. The rule records
these edits (`LineRewrite.edits_eq`), and they write this text (`LineRewrite.written`).

Main result, `import_rewrite_exact`: the output of the rule alone is the text with every line rewritten that a live `le`
opens, and with all else kept (`TextRewrite`).
-/
import Respell.Proofs.Characters
import Respell.Proofs.ImportGrammar
import Respell.Proofs.Seams

namespace Respell.ImportLine

open Vocabulary

/-! ## What the parts become -/

/-- the semicolon that a statement at `offset` may need -/
def closing (closed : Bool) (offset : Nat) : List Edit := if closed then [] else [Edit.insertion .importLine offset ";"]

def semicolon (closed : Bool) : List UInt8 := if closed then [] else [ascii ';']

/-- the word `le` at `i` becomes `import` -/
def wordEdit (i : Nat) : Edit := ⟨.importLine, i, i + 2, "import"⟩

namespace SideEffect

variable {line : List UInt8}

/-- the blanks and the `se` behind the module name go away -/
def edits (i : Nat) (p : SideEffect line) : List Edit :=
  let quoteEnd := i + 2 + p.gap.length + p.name.length
  let markEnd := quoteEnd + p.space.length + 2
  wordEdit i :: ⟨.importLine, quoteEnd, markEnd, ""⟩ :: closing p.closed markEnd

def text (p : SideEffect line) : List UInt8 :=
  (utf8 "import").toList ++ (p.gap ++ (p.name ++ (semicolon p.closed ++ p.tail)))

end SideEffect

namespace Bindings

variable {line : List UInt8}

/-- the `se` becomes `from` -/
def edits (i : Nat) (p : Bindings line) : List Edit :=
  let mark := i + 2 + p.mark
  wordEdit i :: ⟨.importLine, mark, mark + 2, "from"⟩ :: closing p.closed (mark + 2 + p.after.length + p.name.length)

def text (p : Bindings line) : List UInt8 :=
  (utf8 "import").toList ++ (p.gap ++ (p.bound ++ (p.before ++ ((utf8 "from").toList ++
    (p.after ++ (p.name ++ (semicolon p.closed ++ p.tail)))))))

end Bindings

/-- the line behind a word `le` at `i`, with what the word and the line become and the edits for it: a side effect if
the line is one, or else the bindings whose `se` comes first, or else no change -/
inductive LineRewrite (i : Nat) (line : List UInt8) : List UInt8 → List Edit → Prop
  | sideEffect (p : SideEffect line) : LineRewrite i line p.text (p.edits i)
  | bindings (hside : IsEmpty (SideEffect line)) (p : Bindings line) (hfirst : ∀ p' : Bindings line, p.mark ≤ p'.mark) :
    LineRewrite i line p.text (p.edits i)
  | other (hside : IsEmpty (SideEffect line)) (hbindings : IsEmpty (Bindings line)) :
    LineRewrite i line (importWord.toList ++ line) []

/-! ## Whole lines -/

/-- the `se` decides the rest -/
theorem Bindings.edits_eq_of_mark {line : List UInt8} {p p' : Bindings line} (h : p.mark = p'.mark) (i : Nat) :
    p.edits i = p'.edits i := by
  have hgap : p.gap.length = p'.gap.length := p.blanks_eq.symm.trans p'.blanks_eq
  have hbound : p.tight.bound.length = p'.tight.bound.length := by
    have hmark := p.tight_mark
    have hmark' := p'.tight_mark
    omega
  have hform : p.tight.form = p'.tight.form := by
    have hread := p.tight.read
    rw [hbound, p'.tight.read] at hread
    exact (Option.some.inj hread).symm
  obtain ⟨-, hstop, hclosed⟩ := Form.bindings.inj hform
  simp only [hbound] at hstop
  have hstop' : p.after.length + p.name.length = p'.after.length + p'.name.length := by
    have hafter : p.tight.after.length + p.tight.name.length = p'.tight.after.length + p'.tight.name.length := by
      have hone : ∀ q : Bindings line, q.tight.before.length = 1 := fun _ => rfl
      rw [hone p, hone p'] at hstop
      omega
    exact hafter
  have hclosed' : p.closed = p'.closed := hclosed
  simp only [edits, h, hclosed', Nat.add_assoc, hstop']

theorem exists_lineRewrite (i : Nat) (line : List UInt8) : ∃ text edits, LineRewrite i line text edits := by
  by_cases hside : Nonempty (SideEffect line)
  · exact ⟨_, _, .sideEffect hside.some⟩
  · rw [not_nonempty_iff] at hside
    by_cases hbindings : Nonempty (Bindings line)
    · exact ⟨_, _, .bindings hside (Function.argmin Bindings.mark) fun p => Function.argmin_le Bindings.mark p⟩
    · exact ⟨_, _, .other hside (not_nonempty_iff.1 hbindings)⟩

/-- **The edits of a line** are those of its parts. -/
theorem LineRewrite.edits_eq {src : Bytes} {i : Nat} {text : List UInt8} {edits : List Edit}
    (h : LineRewrite i (lineFrom src (i + 2)) text edits) : edits = lineEdits src i := by
  rw [lineEdits_eq]
  generalize lineFrom src (i + 2) = line at h
  cases h with
  | sideEffect p =>
    have hpos : blanks line ≠ 0 := p.blanks_eq ▸ Nat.ne_of_gt p.isGap.length_pos
    rw [if_neg hpos, p.body?_eq, p.blanks_eq]
    simp only [SideEffect.edits, SideEffect.form, Form.edits, closing, wordEdit, Nat.add_assoc]
    rfl
  | bindings hside p hfirst =>
    have hpos : 0 < blanks line := p.blanks_eq ▸ p.isGap.length_pos
    have hmatched := body?_matched hpos
    rw [if_neg (Nat.ne_of_gt hpos)]
    generalize body? (line.drop (blanks line)) = found at hmatched
    cases hmatched with
    | sideEffect p' => exact hside.elim p'
    | bindings _ p' hfirst' =>
      rw [p'.blanks_eq, Bindings.edits_eq_of_mark (Nat.le_antisymm (hfirst p') (hfirst' p)) i]
      simp only [Bindings.edits, Bindings.mark, Bindings.form, Form.edits, closing, wordEdit, Nat.add_assoc]
      rfl
    | other _ hbindings => exact hbindings.elim p
  | other hside hbindings =>
    split_ifs with h0
    · rfl
    · have hmatched := body?_matched (Nat.pos_of_ne_zero h0)
      generalize body? (line.drop (blanks line)) = found at hmatched
      cases hmatched with
      | sideEffect p => exact hside.elim p
      | bindings _ p _ => exact hbindings.elim p
      | other => rfl

/-! ## The text of a line -/

section

variable {src : Bytes} {i stop : Nat} {later : List Edit}

theorem written_closing {a offset : Nat} (ha : a ≤ offset) (hoffset : offset ≤ stop) (hstop : stop ≤ src.size)
    (hlater : ∀ e ∈ later, stop ≤ e.start) (closed : Bool) :
    written src (pieces src a (closing closed offset ++ later)) = (src.extract a offset).toList ++
      (semicolon closed ++ ((src.extract offset stop).toList ++ written src (pieces src stop later))) := by
  cases closed with
  | true =>
    rw [← written_pieces_keep hoffset hstop hlater]
    exact written_pieces_keep ha (hoffset.trans hstop) fun e he => hoffset.trans (hlater e he)
  | false =>
    rw [← written_pieces_keep hoffset hstop hlater]
    exact written_pieces_cons src a (Edit.insertion .importLine offset ";") later

theorem length_lineFrom (hi : i ≤ src.size) :
    i + (lineFrom src i).length = skipWhile (fun b => !isLineEnd b) src i := by
  have hle := le_skipWhile (fun b => !isLineEnd b) src i
  have hsize := skipWhile_le (fun b => !isLineEnd b) src i hi
  rw [lineFrom, Array.length_toList, Array.size_extract]
  omega

theorem drop_lineFrom (hi : i ≤ src.size) :
    src.toList.drop i = lineFrom src i ++ src.toList.drop (i + (lineFrom src i).length) := by
  rw [length_lineFrom hi, lineFrom, Array.toList_extract, List.extract_eq_take_drop]
  have hle := le_skipWhile (fun b => !isLineEnd b) src i
  conv_lhs => rw [← List.take_append_drop (skipWhile (fun b => !isLineEnd b) src i - i) (src.toList.drop i),
    List.drop_drop, Nat.add_sub_cancel' hle]

/-- **What a line becomes** is what its edits write. -/
theorem LineRewrite.written {p : Nat} {text : List UInt8} {edits : List Edit} (hi : i + 2 ≤ src.size)
    (hword : src.extract i (i + 2) = importWord) (hp : p ≤ i)
    (h : LineRewrite i (lineFrom src (i + 2)) text edits)
    (hstop : stop = i + 2 + (lineFrom src (i + 2)).length) (hlater : ∀ e ∈ later, stop ≤ e.start) :
    Respell.written src (pieces src p (edits ++ later)) =
      (src.extract p i).toList ++ (text ++ Respell.written src (pieces src stop later)) := by
  have hsize : stop ≤ src.size := by
    rw [hstop, length_lineFrom hi]
    exact skipWhile_le _ _ _ hi
  have hdrop := drop_lineFrom hi
  rw [← hstop] at hdrop
  generalize lineFrom src (i + 2) = line at h hstop hdrop
  -- in each form the line is regrouped at the ends of the edits, so that what an edit keeps is one part
  cases h with
  | sideEffect q =>
    obtain ⟨gap, name, space, tail, closed, _, _, _, _, rfl⟩ := q
    simp only [List.append_assoc] at hdrop
    rw [← List.append_assoc] at hdrop
    have hname := extract_of_drop hdrop
    have hspace := drop_add_of_drop (drop_add_of_drop hdrop)
    have htail := extract_of_drop (drop_add_of_drop hspace)
    rw [show fromWord.toList.length = 2 from rfl] at htail
    simp only [List.length_append, ← Nat.add_assoc, show fromWord.toList.length = 2 from rfl] at hname htail hstop
    rw [← hstop] at htail
    simp only [SideEffect.edits, SideEffect.text, List.cons_append, wordEdit, written_pieces_cons, hname]
    rw [written_closing (Nat.le_refl _) (by omega) hsize hlater, htail]
    simp [show utf8 "" = #[] from rfl]
  | bindings _ q _ =>
    obtain ⟨gap, bound, before, after, name, tail, closed, _, _, _, _, _, _, rfl⟩ := q
    simp only [List.append_assoc] at hdrop
    rw [← List.append_assoc bound, ← List.append_assoc gap, ← List.append_assoc after] at hdrop
    have hbound := extract_of_drop hdrop
    have hafter := drop_add_of_drop (drop_add_of_drop hdrop)
    have hname := extract_of_drop hafter
    have htail := extract_of_drop (drop_add_of_drop hafter)
    simp only [List.length_append, ← Nat.add_assoc, show fromWord.toList.length = 2 from rfl]
      at hbound hname htail hstop
    rw [← hstop] at htail
    simp only [Bindings.edits, Bindings.text, Bindings.mark, List.cons_append, wordEdit, written_pieces_cons,
      ← Nat.add_assoc, hbound]
    rw [written_closing (by omega) (by omega) hsize hlater, hname, htail]
    simp
  | other _ _ =>
    have hline := extract_of_drop hdrop
    rw [← hstop] at hline
    have hle : i + 2 ≤ stop := hstop ▸ Nat.le_add_right _ _
    rw [List.nil_append, written_pieces_keep hp (by omega) fun e he => by have := hlater e he; omega,
      written_pieces_keep (Nat.le_add_right i 2) hi fun e he => hle.trans (hlater e he),
      written_pieces_keep hle hsize hlater, hword, hline, List.append_assoc]

end

end Respell.ImportLine

namespace Respell

open ImportLine Vocabulary

/-! ## Whole texts -/

namespace OpensImport

variable {src : Bytes} {i k : Nat}

theorem stop_lt (hi : OpensImport src i) (hk : OpensImport src k) (hlt : i < k) :
    i + 2 + (lineFrom src (i + 2)).length < k := by
  rw [length_lineFrom hi.word.le_size]
  exact lineEnd_lt hi.word hk.opens (Nat.le_trans (Nat.le_add_right k 2) hk.word.le_size) hlt

theorem lineEdits_line (h : OpensImport src i) :
    LineEdits src i (i + 2 + (lineFrom src (i + 2)).length) (lineEdits src i) := by
  rw [length_lineFrom h.word.le_size]
  exact Respell.lineEdits_line h.word h.text

end OpensImport

/-- a text from `p` on, with what it becomes and the edits for it: every line that a live `le` opens is rewritten, and
all else is kept -/
inductive TextRewrite (src : Bytes) : Nat → List UInt8 → List Edit → Prop
  | done {p : Nat} (h : ∀ i, p ≤ i → ¬ OpensImport src i) : TextRewrite src p (src.toList.drop p) []
  | line {p i : Nat} {text rest : List UInt8} {edits later : List Edit} (hle : p ≤ i) (hopens : OpensImport src i)
    (hfirst : ∀ k, p ≤ k → k < i → ¬ OpensImport src k) (hline : LineRewrite i (lineFrom src (i + 2)) text edits)
    (hrest : TextRewrite src (i + 2 + (lineFrom src (i + 2)).length) rest later) :
    TextRewrite src p ((src.extract p i).toList ++ (text ++ rest)) (edits ++ later)

namespace TextRewrite

variable {src : Bytes} {p : Nat} {text : List UInt8} {edits : List Edit}

theorem exists_from (src : Bytes) (p : Nat) : ∃ text edits, TextRewrite src p text edits := by
  by_cases h : ∃ i, p ≤ i ∧ OpensImport src i
  · classical
    obtain ⟨hle, hopens⟩ := Nat.find_spec h
    have hfirst : ∀ k, p ≤ k → k < Nat.find h → ¬ OpensImport src k := fun k hk hlt hk' => Nat.find_min h hlt ⟨hk, hk'⟩
    have hsize := hopens.word.le_size
    obtain ⟨text, edits, hline⟩ := exists_lineRewrite (Nat.find h) (lineFrom src (Nat.find h + 2))
    obtain ⟨rest, later, hrest⟩ := exists_from src (Nat.find h + 2 + (lineFrom src (Nat.find h + 2)).length)
    exact ⟨_, _, .line hle hopens hfirst hline hrest⟩
  · exact ⟨_, _, .done fun i hi hopens => h ⟨i, hi, hopens⟩⟩
termination_by src.size - p
decreasing_by omega

theorem mem_iff (h : TextRewrite src p text edits) {e : Edit} :
    e ∈ edits ↔ ∃ i, p ≤ i ∧ OpensImport src i ∧ e ∈ lineEdits src i := by
  induction h with
  | done hnone =>
    refine iff_of_false List.not_mem_nil ?_
    intro ⟨i, hle, hopens, _⟩
    exact hnone i hle hopens
  | @line p i text rest edits later hle hopens hfirst hline hrest ih =>
    rw [List.mem_append, ih, hline.edits_eq]
    constructor
    · intro h
      rcases h with he | ⟨k, hk, hopens', he⟩
      · exact ⟨i, hle, hopens, he⟩
      · exact ⟨k, by omega, hopens', he⟩
    · intro ⟨k, hk, hopens', he⟩
      rcases Nat.lt_trichotomy k i with hlt | rfl | hgt
      · exact absurd hopens' (hfirst k hk hlt)
      · exact .inl he
      · exact .inr ⟨k, Nat.le_of_lt (hopens.stop_lt hopens' hgt), hopens', he⟩

theorem order (h : TextRewrite src p text edits) : edits.Pairwise Edit.Before := by
  induction h with
  | done _ => exact .nil
  | @line p i text rest edits later hle hopens hfirst hline hrest ih =>
    have hedits := hopens.lineEdits_line
    rw [hline.edits_eq]
    refine List.pairwise_append.2 ⟨hedits.order, ih, ?_⟩
    intro e he e' he'
    obtain ⟨k, hk, hopens', hek⟩ := hrest.mem_iff.1 he'
    have hlt := hopens.stop_lt hopens' (by omega)
    have hstop := (hedits.range e he).2
    have hstart := (hedits.shape e he).1.le
    have hstart' := (hopens'.lineEdits_line.range e' hek).1
    exact ⟨by omega, by omega⟩

/-- **The edits of the rule** are those of the lines, in their order. -/
theorem edits_eq (h : TextRewrite src 0 text edits) : edits = ImportLine.edits src := by
  have hne : ∀ {a b : Edit}, a.Before b → a ≠ b := by
    rintro a b hab rfl
    exact absurd hab.1 (Nat.lt_irrefl _)
  have hnodup : ∀ {es : List Edit}, es.Pairwise Edit.Before → es.Nodup := fun hes => hes.imp hne
  have hperm : edits.Perm (ImportLine.edits src) := by
    rw [List.perm_ext_iff_of_nodup (hnodup h.order) (hnodup (import_order src))]
    intro e
    rw [h.mem_iff, mem_import_iff]
    simp only [Nat.zero_le, true_and]
  refine List.Perm.eq_of_pairwise ?_ h.order (import_order src) hperm
  intro a b _ _ hab hba
  exact absurd (hab.1.trans hba.1) (Nat.lt_irrefl _)

/-- **What the text becomes** is what the edits write. -/
theorem written_eq (h : TextRewrite src p text edits) : written src (pieces src p edits) = text := by
  induction h with
  | done _ => rw [written_pieces_nil, Array.toList_extract, List.extract_eq_take_drop, List.take_of_length_le (by simp)]
  | @line p i text rest edits later hle hopens hfirst hline hrest ih =>
    have hlater : ∀ e ∈ later, i + 2 + (lineFrom src (i + 2)).length ≤ e.start := by
      intro e he
      obtain ⟨k, hk, hopens', hek⟩ := hrest.mem_iff.1 he
      exact hk.trans (hopens'.lineEdits_line.range e hek).1
    rw [hline.written hopens.word.le_size hopens.text hle rfl hlater, ih]

end TextRewrite

/-- **The import rule rewrites the lines of its grammar, and nothing else.** Its edits can always be carried out. Over
every text, they and the output are those of `TextRewrite`: a line that a live `le` opens is rewritten just when it is
a side effect or has bindings, as `LineRewrite` says, and all else is kept. -/
theorem import_rewrite_exact (src : Bytes) : ∃ out, applyEdits src (ImportLine.edits src) = .ok out ∧
    ∀ text edits, TextRewrite src 0 text edits ↔ text = out.code.toList ∧ edits = ImportLine.edits src := by
  refine ⟨_, applyEdits_of_before src (import_order src), ?_⟩
  have hexact : ∀ text edits, TextRewrite src 0 text edits →
      text = (render src (ImportLine.edits src)).code.toList ∧ edits = ImportLine.edits src := by
    intro text edits h
    refine ⟨?_, h.edits_eq⟩
    rw [render_code, ← h.edits_eq, h.written_eq]
  intro text edits
  refine ⟨hexact text edits, ?_⟩
  intro ⟨htext, hedits⟩
  obtain ⟨text', edits', h⟩ := TextRewrite.exists_from src 0
  obtain ⟨htext', hedits'⟩ := hexact text' edits' h
  rw [htext, hedits, ← htext', ← hedits']
  exact h

end Respell
