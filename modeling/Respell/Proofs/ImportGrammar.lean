/-
The grammar of an import line, by positions. `Admitted line base` says at which offsets the parts of one of the two
forms stand, from `base` on. It says the same as the parts do: a line has blanks and an admitted form behind them just
when it can be cut into the parts of a side effect or of bindings (`isImport_iff_nonempty`). So an import line is one
that is edited (`isImport_iff_mem`).

Which lines are looked at is said by `OpensImport`: those whose first word is a live `le` outside all holes. The import
edits of a text are the edits of these lines (`mem_import_iff`).
-/
import Respell.Proofs.ImportLiveness

namespace Respell.ImportLine

open Vocabulary

/-! ## Parts -/

/-- blanks from `a` up to `c` -/
structure BlanksAt (text : List UInt8) (a c : Nat) : Prop where
  le : a ≤ c
  blank : ∀ k, a ≤ k → k < c → text[k]?.any isBlank = true

theorem BlanksAt.refl (text : List UInt8) (a : Nat) : BlanksAt text a a :=
  ⟨Nat.le_refl a, fun _ h1 h2 => absurd h1 (Nat.not_le_of_lt h2)⟩

theorem BlanksAt.concat {text : List UInt8} {a c : Nat} (h : BlanksAt text a c) (hc : text[c]?.any isBlank = true) :
    BlanksAt text a (c + 1) := by
  refine ⟨Nat.le_succ_of_le h.le, ?_⟩
  intro k h1 h2
  rcases Nat.lt_succ_iff_lt_or_eq.1 h2 with h2 | rfl
  · exact h.blank k h1 h2
  · exact hc

/-- a module name with its quotes at `a` and `c` -/
structure NameAt (text : List UInt8) (a c : Nat) : Prop where
  lt : a + 1 < c
  quotes : ∃ q, isQuote q = true ∧ text[a]? = some q ∧ text[c]? = some q
  inside : ∀ k, a < k → k < c → text[k]?.any (fun b => !isQuote b) = true

/-- the end of the line, a semicolon or a comment at `d` -/
def ClosesAt (text : List UInt8) (d : Nat) : Prop :=
  text[d]? = none ∨ text[d]? = some (ascii ';') ∨
    (text[d]? = some (ascii '/') ∧ (text[d + 1]? = some (ascii '/') ∨ text[d + 1]? = some (ascii '*')))

def TailFrom (text : List UInt8) (c : Nat) : Prop := ∃ d, BlanksAt text c d ∧ ClosesAt text d

/-- one of the two forms from `base` on -/
inductive Admitted (text : List UInt8) (base : Nat) : Prop
  | sideEffect {c m : Nat} (hname : NameAt text base c) (hblank : BlanksAt text (c + 1) m) (hlt : c + 1 < m)
    (hfrom : FromAt text m) (htail : TailFrom text (m + 2))
  | bindings {m a c : Nat} (hlt : base < m) (hbefore : text[m]?.any isBlank = true) (hfrom : FromAt text (m + 1))
    (hblank : BlanksAt text (m + 3) a) (hspace : m + 3 < a) (hname : NameAt text a c) (htail : TailFrom text (c + 1))

/-- blanks and then one of the two forms -/
def IsImport (text : List UInt8) : Prop := ∃ base, 0 < base ∧ BlanksAt text 0 base ∧
  text[base]?.any isBlank = false ∧ Admitted text base

/-! ## The parts at these positions -/

section

variable {text rest : List UInt8} {a c : Nat}

theorem drop_eq_cons {b : UInt8} (h : text[a]? = some b) : text.drop a = b :: text.drop (a + 1) := by
  obtain ⟨hlt, rfl⟩ := List.getElem?_eq_some_iff.1 h
  exact List.drop_eq_getElem_cons hlt

/-- what stands between two positions, if each byte of it is of one kind -/
theorem exists_span {p : UInt8 → Bool} (hle : a ≤ c) (h : ∀ k, a ≤ k → k < c → text[k]?.any p = true) :
    ∃ part, text.drop a = part ++ text.drop c ∧ c = a + part.length ∧ ∀ b ∈ part, p b = true := by
  induction c, hle using Nat.le_induction with
  | base => exact ⟨[], rfl, rfl, by simp⟩
  | succ c hle ih =>
    obtain ⟨part, hdrop, rfl, hpart⟩ := ih fun k h1 h2 => h k h1 (Nat.lt_succ_of_lt h2)
    obtain ⟨b, hb, hpb⟩ := (Option.any_eq_true _ _).1 (h _ hle (Nat.lt_succ_self _))
    refine ⟨part ++ [b], ?_, by simp [Nat.add_assoc], ?_⟩
    · rw [hdrop, drop_eq_cons hb, List.append_assoc, List.singleton_append]
    · intro b' hb'
      rcases List.mem_append.1 hb' with hb' | hb'
      · exact hpart b' hb'
      · rwa [List.mem_singleton.1 hb']

theorem blanksAt_of_drop {gap : List UInt8} (h : text.drop a = gap ++ rest) (hgap : ∀ b ∈ gap, isBlank b = true) :
    BlanksAt text a (a + gap.length) :=
  ⟨Nat.le_add_right _ _, fun _ h1 h2 => any_of_drop h hgap h1 h2⟩

theorem BlanksAt.exists_gap (h : BlanksAt text a c) (hlt : a < c) :
    ∃ gap, text.drop a = gap ++ text.drop c ∧ Gap gap := by
  obtain ⟨gap, hdrop, rfl, hblank⟩ := exists_span h.le h.blank
  exact ⟨gap, hdrop, gap_of_pos (Nat.lt_add_right_iff_pos.1 hlt) hblank⟩

theorem nameAt_of_drop {name : List UInt8} (h : text.drop a = name ++ rest) (hname : Quoted name) :
    ∃ c, a + name.length = c + 1 ∧ NameAt text a c := by
  obtain ⟨q, name, hq, hne, hinside, rfl⟩ := hname
  have hopen : text.drop a = q :: (name ++ q :: rest) := by simpa using h
  have hname : text.drop (a + 1) = name ++ q :: rest := @drop_add_of_drop text [q] _ a hopen
  have hclose := drop_add_of_drop hname
  have hpos := List.length_pos_of_ne_nil hne
  refine ⟨a + 1 + name.length, by simp; omega, by omega, ⟨q, hq, ?_, ?_⟩, ?_⟩
  · exact getElem?_add_of_drop hopen 0
  · exact getElem?_add_of_drop hclose 0
  · exact fun k h1 h2 => any_of_drop hname (by simpa using hinside) h1 h2

theorem NameAt.exists_quoted (h : NameAt text a c) : ∃ name, text.drop a = name ++ text.drop (c + 1) ∧ Quoted name := by
  obtain ⟨hlt, ⟨q, hq, hopen, hclose⟩, hinside⟩ := h
  obtain ⟨name, hdrop, rfl, hname⟩ := exists_span (Nat.le_of_lt hlt) hinside
  refine ⟨q :: (name ++ [q]), ?_, q, name, hq, ?_, by simpa using hname, rfl⟩
  · rw [drop_eq_cons hopen, hdrop, drop_eq_cons hclose]
    simp
  · exact List.ne_nil_of_length_pos (by omega)

theorem FromAt.drop_eq (h : FromAt text a) : text.drop a = fromWord.toList ++ text.drop (a + 2) := by
  rw [drop_eq_cons h.1, drop_eq_cons h.2]
  rfl

theorem tailFrom_iff : TailFrom text a ↔ ∃ closed, Tail closed (text.drop a) := by
  constructor
  · rintro ⟨d, hblank, hclose⟩
    obtain ⟨gap, hdrop, rfl, hgap⟩ := exists_span hblank.le hblank.blank
    rw [hdrop]
    rcases hclose with hnone | hsemi | ⟨hslash, hsecond⟩
    · rw [List.drop_eq_nil_of_le (List.getElem?_eq_none_iff.1 hnone), List.append_nil]
      exact ⟨_, .done hgap⟩
    · rw [drop_eq_cons hsemi]
      exact ⟨_, .semicolon hgap⟩
    · rw [drop_eq_cons hslash]
      rcases hsecond with hmark | hmark
      · rw [drop_eq_cons hmark]
        exact ⟨_, .comment hgap (.inl rfl)⟩
      · rw [drop_eq_cons hmark]
        exact ⟨_, .comment hgap (.inr rfl)⟩
  · rintro ⟨closed, h⟩
    generalize htext : text.drop a = tail at h
    cases h with
    | done hgap =>
      refine ⟨_, blanksAt_of_drop (htext.trans (List.append_nil _).symm) hgap, .inl ?_⟩
      exact getElem?_add_of_drop (drop_add_of_drop (htext.trans (List.append_nil _).symm)) 0
    | semicolon hgap =>
      exact ⟨_, blanksAt_of_drop htext hgap, .inr (.inl (getElem?_add_of_drop (drop_add_of_drop htext) 0))⟩
    | comment hgap hmark =>
      have hslash := drop_add_of_drop htext
      refine ⟨_, blanksAt_of_drop htext hgap, .inr (.inr ⟨getElem?_add_of_drop hslash 0, ?_⟩)⟩
      rw [getElem?_add_of_drop hslash 1]
      exact hmark.imp (congrArg some) (congrArg some)

theorem NameAt.not_blank (h : NameAt text a c) : text[a]?.any isBlank = false := by
  obtain ⟨q, hq, ha, -⟩ := h.quotes
  rw [ha]
  rcases isQuote_iff.1 hq with rfl | rfl <;> decide

end

/-! ## The blanks that a line begins with -/

theorem blanksAt_blanks (text : List UInt8) (a : Nat) :
    BlanksAt text a (a + blanks (text.drop a)) ∧ text[a + blanks (text.drop a)]?.any isBlank = false := by
  obtain ⟨gap, rest, hdrop, hgap, hstop, hlength, -⟩ := exists_blanks (text.drop a)
  rw [hlength]
  refine ⟨blanksAt_of_drop hdrop hgap, ?_⟩
  rw [← List.head?_drop, drop_add_of_drop hdrop]
  exact hstop

theorem BlanksAt.le_blanks {text : List UInt8} {n : Nat} (h : BlanksAt text 0 n) : n ≤ blanks text := by
  obtain ⟨-, hstop⟩ := blanksAt_blanks text 0
  rw [Nat.zero_add, List.drop_zero] at hstop
  by_contra hlt
  rw [h.blank _ (Nat.zero_le _) (Nat.lt_of_not_le hlt)] at hstop
  cases hstop

theorem blanks_le {text : List UInt8} {n : Nat} (h : text[n]?.any isBlank = false) : blanks text ≤ n := by
  obtain ⟨hblank, -⟩ := blanksAt_blanks text 0
  rw [Nat.zero_add, List.drop_zero] at hblank
  by_contra hlt
  rw [hblank.blank n (Nat.zero_le n) (Nat.lt_of_not_le hlt)] at h
  cases h

theorem isImport_of_blanks {text : List UInt8} (hpos : 0 < blanks text) (h : Admitted text (blanks text)) :
    IsImport text := by
  obtain ⟨hblank, hstop⟩ := blanksAt_blanks text 0
  rw [Nat.zero_add, List.drop_zero] at hblank hstop
  exact ⟨_, hpos, hblank, hstop, h⟩

/-! ## Positions and parts -/

theorem SideEffect.isImport {line : List UInt8} (p : SideEffect line) : IsImport line := by
  have hpos : 0 < blanks line := p.blanks_eq ▸ p.isGap.length_pos
  refine isImport_of_blanks hpos ?_
  have hname := p.drop_blanks
  obtain ⟨c, hc, hat⟩ := nameAt_of_drop hname p.isQuoted
  have hspace := drop_add_of_drop hname
  rw [hc] at hspace
  have hfrom := drop_add_of_drop hspace
  exact .sideEffect hat (blanksAt_of_drop hspace p.isSpace.blank) (Nat.lt_add_of_pos_right p.isSpace.length_pos)
    (fromAt_of_drop hfrom) (tailFrom_iff.2 ⟨p.closed, (drop_add_of_drop hfrom).symm ▸ p.isTail⟩)

theorem Bindings.isImport {line : List UInt8} (p : Bindings line) : IsImport line := by
  have hpos : 0 < blanks line := p.blanks_eq ▸ p.isGap.length_pos
  refine isImport_of_blanks hpos ?_
  have hbefore := drop_add_of_drop p.drop_blanks
  have hbound := p.length_bound_ne_zero
  obtain ⟨n, hn⟩ := Nat.exists_eq_succ_of_ne_zero (Nat.ne_of_gt p.isBefore.length_pos)
  have hblank := any_of_drop hbefore p.isBefore.blank (Nat.le_add_right _ n) (by omega)
  have hfrom := drop_add_of_drop hbefore
  rw [hn] at hfrom
  have hafter := drop_add_of_drop hfrom
  have hname := drop_add_of_drop hafter
  obtain ⟨c, hc, hat⟩ := nameAt_of_drop hname p.isQuoted
  have htail := drop_add_of_drop hname
  rw [hc] at htail
  exact .bindings (by omega) hblank (fromAt_of_drop hfrom) (blanksAt_of_drop hafter p.isAfter.blank)
    (Nat.lt_add_of_pos_right p.isAfter.length_pos) hat (tailFrom_iff.2 ⟨p.closed, htail.symm ▸ p.isTail⟩)

/-- **Positions and parts say the same** of a line. -/
theorem isImport_iff_nonempty {line : List UInt8} :
    IsImport line ↔ Nonempty (SideEffect line) ∨ Nonempty (Bindings line) := by
  constructor
  · rintro ⟨base, hpos, hblank, hstop, hform⟩
    obtain ⟨gap, hline, hgap⟩ := hblank.exists_gap hpos
    rw [List.drop_zero] at hline
    cases hform with
    | sideEffect hname hspace hlt hfrom htail =>
      obtain ⟨name, hdrop, hquoted⟩ := hname.exists_quoted
      obtain ⟨space, hdrop', hspace⟩ := hspace.exists_gap hlt
      obtain ⟨closed, htail⟩ := tailFrom_iff.1 htail
      refine .inl ⟨⟨gap, name, space, _, closed, hgap, hquoted, hspace, htail, ?_⟩⟩
      rw [← hfrom.drop_eq, ← hdrop', ← hdrop, ← hline]
    | @bindings m a c hlt hbefore hfrom hafter hspace hname htail =>
      obtain ⟨bound, hbound, rfl, -⟩ := exists_span (p := fun _ => true) (Nat.le_of_lt hlt) fun k h1 h2 => by
        obtain ⟨b, hb, -⟩ := (Option.any_eq_true _ _).1 hbefore
        obtain ⟨hlen, -⟩ := List.getElem?_eq_some_iff.1 hb
        rw [List.getElem?_eq_getElem (Nat.lt_trans h2 hlen)]
        rfl
      obtain ⟨before, hdrop, hgap'⟩ := ((BlanksAt.refl line _).concat hbefore).exists_gap (Nat.lt_succ_self _)
      obtain ⟨after, hdrop', hafter⟩ := hafter.exists_gap hspace
      obtain ⟨name, hdrop'', hquoted⟩ := hname.exists_quoted
      obtain ⟨closed, htail⟩ := tailFrom_iff.1 htail
      have hhead : bound.head?.any (fun b => !isBlank b) = true := by
        cases bound with
        | nil => exact absurd hlt (Nat.lt_irrefl base)
        | cons b bound =>
          rw [← List.head?_drop, hbound] at hstop
          simpa using hstop
      refine .inr ⟨⟨gap, bound, before, after, name, _, closed, hgap, hhead, hgap', hafter, hquoted, htail, ?_⟩⟩
      rw [← hdrop'', ← hdrop', ← hfrom.drop_eq, ← hdrop, ← hbound, ← hline]
  · rintro (⟨⟨p⟩⟩ | ⟨⟨p⟩⟩)
    · exact p.isImport
    · exact p.isImport

/-! ## Lines -/

def lineFrom (src : Bytes) (i : Nat) : List UInt8 := (src.extract i (skipWhile (fun b => !isLineEnd b) src i)).toList

def SameLine (src : Bytes) (a b : Nat) : Prop := ∀ k, a ≤ k → k < b → src[k]?.any isLineEnd = false

theorem SameLine.mono {src : Bytes} {a b c : Nat} (h : SameLine src a b) (hc : c ≤ b) : SameLine src a c :=
  fun k h1 h2 => h k h1 (Nat.lt_of_lt_of_le h2 hc)

theorem SameLine.succ {src : Bytes} {a b : Nat} (h : SameLine src a b) (hb : src[b]?.any isLineEnd = false) :
    SameLine src a (b + 1) := by
  intro k h1 h2
  rcases Nat.lt_succ_iff_lt_or_eq.1 h2 with h2 | rfl
  · exact h k h1 h2
  · exact hb

theorem getElem?_lineFrom {src : Bytes} {i k : Nat} {b : UInt8} :
    (lineFrom src i)[k]? = some b ↔ src[i + k]? = some b ∧ SameLine src i (i + k + 1) := by
  have hle := le_skipWhile (fun b => !isLineEnd b) src i
  have hstop := skipWhile_stops (fun b => !isLineEnd b) src i
  have hpass : ∀ k, i ≤ k → k < skipWhile (fun b => !isLineEnd b) src i → src[k]?.any isLineEnd = false :=
    fun k h1 h2 => any_eq_false_of_any (by simp) (skipWhile_passes h1 h2)
  rw [lineFrom, Array.getElem?_toList, Array.getElem?_extract]
  generalize skipWhile (fun b => !isLineEnd b) src i = stop at *
  refine ⟨?_, ?_⟩
  · intro h
    split_ifs at h with hlt
    refine ⟨h, ?_⟩
    intro j h1 h2
    exact hpass j h1 (by omega)
  · rintro ⟨hb, hsame⟩
    obtain ⟨hsize, -⟩ := Array.getElem?_eq_some_iff.1 hb
    have hlt : i + k < stop := by
      by_contra hge
      have hend := hsame stop hle (by omega)
      rw [Array.getElem?_eq_getElem (show stop < src.size by omega)] at hstop hend
      simp only [Option.any_some, Bool.not_eq_false'] at hstop hend
      rw [hstop] at hend
      cases hend
    rwa [if_pos (by omega)]

theorem lineFrom_eq_none {src : Bytes} {i k : Nat} (h : SameLine src i (i + k)) :
    (lineFrom src i)[k]? = none ↔ src[i + k]?.all isLineEnd = true := by
  rw [Option.eq_none_iff_forall_ne_some]
  simp only [ne_eq, getElem?_lineFrom, not_and]
  cases hb : src[i + k]? with
  | none => simp
  | some b =>
    simp only [Option.some.injEq, Option.all_some]
    refine ⟨?_, ?_⟩
    · intro hno
      by_contra hend
      refine hno b rfl (h.succ ?_)
      rw [hb]
      simpa using hend
    · intro hend b' _ hsame
      have hlast := hsame (i + k) (Nat.le_add_right i k) (Nat.lt_succ_self _)
      rw [hb, Option.any_some, hend] at hlast
      cases hlast

theorem lineEdits_eq (src : Bytes) (i : Nat) :
    lineEdits src i =
      if blanks (lineFrom src (i + 2)) = 0 then []
      else
        match body? ((lineFrom src (i + 2)).drop (blanks (lineFrom src (i + 2)))) with
        | some form => form.edits i (i + 2 + blanks (lineFrom src (i + 2)))
        | none => [] :=
  rfl

theorem Form.edits_eq_cons (i base : Nat) (form : Form) :
    ∃ rest, form.edits i base = ⟨.importLine, i, i + 2, "import"⟩ :: rest := by
  cases form with
  | sideEffect => exact ⟨_, rfl⟩
  | bindings => exact ⟨_, rfl⟩

theorem lineEdits_cases_form (src : Bytes) (i : Nat) :
    (IsImport (lineFrom src (i + 2)) ∧ ∃ form base, lineEdits src i = Form.edits i base form) ∨
      (¬ IsImport (lineFrom src (i + 2)) ∧ lineEdits src i = []) := by
  rw [lineEdits_eq]
  generalize lineFrom src (i + 2) = line
  split_ifs with h0
  · refine .inr ⟨?_, rfl⟩
    rintro ⟨base, hpos, hblank, -⟩
    have hle := hblank.le_blanks
    omega
  · have hmatched := body?_matched (Nat.pos_of_ne_zero h0)
    generalize body? (line.drop (blanks line)) = found at hmatched
    cases hmatched with
    | sideEffect p => exact .inl ⟨p.isImport, _, _, rfl⟩
    | bindings _ p _ => exact .inl ⟨p.isImport, _, _, rfl⟩
    | other hside hbindings =>
      refine .inr ⟨?_, rfl⟩
      rw [isImport_iff_nonempty, not_or, not_nonempty_iff, not_nonempty_iff]
      exact ⟨hside, hbindings⟩

/-- **Import lines.** Blanks and one of the two forms follow a word `le` just when its line is edited, and then the word
is among what is edited. -/
theorem isImport_iff_mem {src : Bytes} {i : Nat} :
    IsImport (lineFrom src (i + 2)) ↔ ⟨.importLine, i, i + 2, "import"⟩ ∈ lineEdits src i := by
  rcases lineEdits_cases_form src i with ⟨himport, form, base, heq⟩ | ⟨hnot, heq⟩
  · obtain ⟨rest, hrest⟩ := form.edits_eq_cons i base
    rw [heq, hrest]
    exact iff_of_true himport List.mem_cons_self
  · rw [heq]
    exact iff_of_false hnot List.not_mem_nil

end Respell.ImportLine

namespace Respell

open Vocabulary

/-- the word `le` at `i` is live outside all holes, and nothing but blanks precedes it on its line -/
structure OpensImport (src : Bytes) (i : Nat) : Prop where
  word : IsWord src i (i + 2)
  text : src.extract i (i + 2) = importWord
  live : liveAt src i = some .normal
  opens : opensLine src i = true

namespace OpensImport

variable {src : Bytes} {i : Nat}

theorem rule_edits (h : OpensImport src i) {b : UInt8} (hb : src[i]? = some b) :
    (ImportLine.rule src .normal i b).edits = ImportLine.lineEdits src i := by
  have hin : inWord b = true := by
    have hfirst := h.word.first
    rwa [hb] at hfirst
  have hstop : endOfWord src i = i + 2 := h.word.endOfWord_eq
  simp only [ImportLine.rule, if_pos hin, hstop]
  rw [if_pos ⟨trivial, h.text, h.opens⟩]

end OpensImport

/-- **Import edits** are the edits of the lines that begin with a live word `le`. -/
theorem mem_import_iff {src : Bytes} {e : Edit} :
    e ∈ ImportLine.edits src ↔ ∃ i, OpensImport src i ∧ e ∈ ImportLine.lineEdits src i := by
  refine ⟨?_, ?_⟩
  · intro h
    obtain ⟨r, i, b, hlive, hb, he⟩ :=
      mem_sweep_live (fun _ _ _ _ _ h1 h2 => passive_of_import_rule h1 h2) (synced_start src) h
    obtain ⟨hw, hx, hopen, rfl, heq⟩ := mem_import_rule hb he
    exact ⟨i, ⟨hw, hx, hlive, hopen⟩, heq ▸ he⟩
  · rintro ⟨i, h, he⟩
    obtain ⟨b, hb⟩ : ∃ b, src[i]? = some b := by
      obtain ⟨b, hb, -⟩ := (Option.any_eq_true _ _).1 h.word.first
      exact ⟨b, hb⟩
    refine mem_sweep_of_live (fun _ _ _ _ _ h1 h2 => passive_of_import_rule h1 h2) h.live hb ?_ (synced_start src)
      (Nat.zero_le i) (by rwa [h.rule_edits hb])
    intro r' i' b' hb' hlt
    refine Nat.le_trans (readTo_import_rule src r' i' b') ?_
    -- a word that went on at `i` would hold the byte before it
    by_contra hgt
    have hin := skipWhile_passes (show i' ≤ i - 1 by omega) (show i - 1 < endOfWord src i' by omega)
    rw [before_of_opensLine h.opens (show i - 1 + 1 = i by omega)] at hin
    cases hin

end Respell
