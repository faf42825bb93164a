/-
Strict reading. Here an operation outside its bounds has no result: a byte is read only inside the text, a range of
bytes is taken only inside it, a text only between characters, a count of open braces fits in 32 bits and does not go
below zero, and the scanner never moves back. The scanner, the sweep and the output of edits are written once more
with these operations alone. Their loops go on only from a place further ahead, so a run that would not end has no
result either.

A text of less than 2^32 bytes that spells characters is read to its end: `step_eq`, `nextLive_eq` and `sweep_eq` say
that the strict scanner and the strict sweep give what the scanner and the sweep give, and `render_eq` that edits
between characters are written out. No hole has more open braces than bytes have been read (`Scanner.WellNested`), so
no count fails; a backslash is a character of its own, so what is escaped begins at one.
-/
import Respell.Proofs.Boundaries
import Respell.Proofs.NestedRegions
import Respell.Rules.Sweep

namespace Respell.Strict

/-! ## Operations with bounds -/

def byte (src : Bytes) (i : Nat) : Option UInt8 := src[i]?

def byteBefore (src : Bytes) (i : Nat) : Option UInt8 := if 0 < i then byte src (i - 1) else none

def range (src : Bytes) (i j : Nat) : Option Bytes := if i ≤ j ∧ j ≤ src.size then some (src.extract i j) else none

instance (src : Bytes) (p : Nat) : Decidable (Boundary src p) := by unfold Boundary; infer_instance

/-- the bytes of a range that begins and ends between characters -/
def text (src : Bytes) (i j : Nat) : Option Bytes :=
  if i ≤ j ∧ Boundary src i ∧ Boundary src j then some (src.extract i j) else none

/-- whether a mark stands at an offset inside the text or at its end -/
def startsWith (src : Bytes) (i : Nat) (mark : Bytes) : Option Bool := do
  let rest ← range src i src.size
  return rest.extract 0 mark.size == mark

/-- one more, if that fits in 32 bits -/
def more (n : Nat) : Option Nat := if n + 1 < UInt32.size then some (n + 1) else none

/-- one less than a count above zero -/
def less (n : Nat) : Option Nat := if 0 < n then some (n - 1) else none

def skipWhile (p : UInt8 → Bool) (src : Bytes) (i : Nat) : Option Nat :=
  if i < src.size then do
    let b ← byte src i
    if p b then skipWhile p src (i + 1) else some i
  else some i
termination_by src.size - i

/-- move ahead to an offset that does not lie behind -/
def seek (src : Bytes) (s : Scanner) (p : Nat) : Option Scanner :=
  if s.pos ≤ p then some { s with pos := min p src.size } else none

/-- an edit whose range lies in the text, begins and ends between characters -/
def record (src : Bytes) (e : Edit) : Option Edit :=
  if e.start ≤ e.stop ∧ Boundary src e.start ∧ Boundary src e.stop then some e else none

/-! ## The scanner -/

/-- a backslash and the first character of the text after it -/
def skipEscape (src : Bytes) (s : Scanner) : Option Scanner := do
  let rest ← text src (s.pos + 1) src.size
  return { s with pos := s.pos + 1 + endOfChar rest 0 }

def opening? (src : Bytes) (i : Nat) (b : UInt8) : Option (Option (Region × Nat)) :=
  if b = ascii '/' then do
    let line ← startsWith src i #[ascii '/', ascii '/']
    let block ← startsWith src i #[ascii '/', ascii '*']
    return if line then some (.lineComment, 2) else if block then some (.blockComment, 2) else none
  else if b = ascii '\'' then some (some (.singleQuoted, 1))
  else if b = ascii '"' then some (some (.doubleQuoted, 1))
  else if b = 0x60 then some (some (.template, 1))
  else some none

def quotedStep (src : Bytes) (s : Scanner) (quote b : UInt8) : Option Scanner :=
  if b = ascii '\\' then skipEscape src s
  else some (if b = quote ∨ b = ascii '\n' then s.leave 1 else s.advance 1)

def templateStep (src : Bytes) (s : Scanner) (b : UInt8) : Option Scanner :=
  if b = ascii '\\' then skipEscape src s
  else if b = 0x60 then some (s.leave 1)
  else do
    let hole ← startsWith src s.pos #[ascii '$', ascii '{']
    return if hole then s.enter 2 (.hole 1) else s.advance 1

def holeStep (s : Scanner) (depth : Nat) (b : UInt8) : Option (Scanner × Bool) :=
  if b = ascii '{' then do
    let deeper ← more depth
    return ({ s.advance 1 with region := .hole deeper }, true)
  else if b = ascii '}' then
    if depth = 1 then some (s.leave 1, false)
    else do
      let higher ← less depth
      return ({ s.advance 1 with region := .hole higher }, true)
  else some (s.advance 1, true)

def codeStep (src : Bytes) (s : Scanner) (b : UInt8) : Option (Scanner × Bool) := do
  match ← opening? src s.pos b with
  | some (r, n) => return (s.enter n r, false)
  | none =>
    match s.region with
    | .hole depth => holeStep s depth b
    | _ => return (s.advance 1, true)

def step (src : Bytes) (s : Scanner) : Option (Scanner × Bool) := do
  let b ← byte src s.pos
  match s.region with
  | .lineComment => return (if b = ascii '\n' then s.leave 1 else s.advance 1, false)
  | .blockComment =>
    let closes ← startsWith src s.pos #[ascii '*', ascii '/']
    return (if closes then s.leave 2 else s.advance 1, false)
  | .singleQuoted => return (← quotedStep src s (ascii '\'') b, false)
  | .doubleQuoted => return (← quotedStep src s (ascii '"') b, false)
  | .template => return (← templateStep src s b, false)
  | .normal => codeStep src s b
  | .hole _ => codeStep src s b

def nextLive (src : Bytes) (s : Scanner) : Option (Option Nat × Scanner) :=
  if s.pos < src.size then do
    let t ← step src s
    if t.2 then some (some s.pos, t.1)
    else if s.pos < t.1.pos then nextLive src t.1
    else none
  else some (none, s)
termination_by src.size - s.pos

/-- the sweep of a rule that gives the edits it records at a live byte and the offsets it moves to, one after another -/
def sweep (src : Bytes) (rule : Region → Nat → Option (List Edit × List Nat)) (s : Scanner) : Option (List Edit) := do
  match ← nextLive src s with
  | (none, _) => return []
  | (some i, t) =>
    let found ← rule t.region i
    let edits ← found.1.mapM (record src)
    let t ← found.2.foldlM (seek src) t
    if s.pos < t.pos ∧ t.pos ≤ src.size then do
      let rest ← sweep src rule t
      return edits ++ rest
    else none
termination_by src.size - s.pos

/-! ## Inside the bounds -/

theorem range_eq {src : Bytes} {i j : Nat} (hij : i ≤ j) (hj : j ≤ src.size) : range src i j = some (src.extract i j) :=
  if_pos ⟨hij, hj⟩

theorem text_eq {src : Bytes} {i j : Nat} (hij : i ≤ j) (hi : Boundary src i) (hj : Boundary src j) :
    text src i j = some (src.extract i j) :=
  if_pos ⟨hij, hi, hj⟩

theorem startsWith_eq {src : Bytes} {i : Nat} (hi : i ≤ src.size) (mark : Bytes) :
    startsWith src i mark = some (src.extract i (i + mark.size) == mark) := by
  have hcut : (src.extract i src.size).extract 0 mark.size = src.extract i (i + mark.size) := by
    rw [Array.extract_extract, Nat.add_zero, Array.extract_eq_extract_right]
    omega
  unfold startsWith
  rw [range_eq hi (Nat.le_refl _), Option.bind_eq_bind, Option.bind_some, hcut]
  rfl

theorem startsWith_two {src : Bytes} {i : Nat} {b : UInt8} (hb : src[i]? = some b) (first second : UInt8) :
    startsWith src i #[first, second] = some (b = first ∧ src[i + 1]? = some second : Bool) := by
  obtain ⟨hi, -⟩ := Array.getElem?_eq_some_iff.1 hb
  rw [startsWith_eq (Nat.le_of_lt hi)]
  congr 1
  rw [Bool.eq_iff_iff, beq_iff_eq, decide_eq_true_iff]
  constructor
  · intro h
    have h0 := getElem?_of_extract h (show 0 < 2 by decide)
    have h1 := getElem?_of_extract h (show 1 < 2 by decide)
    exact ⟨Option.some.inj (hb.symm.trans h0), h1⟩
  · rintro ⟨rfl, h1⟩
    refine extract_eq ?_
    intro k hk
    have hk2 : k < 2 := hk
    interval_cases k
    · exact hb
    · exact h1

theorem skipWhile_eq (p : UInt8 → Bool) (src : Bytes) (i : Nat) :
    skipWhile p src i = some (Respell.skipWhile p src i) := by
  fun_induction Respell.skipWhile p src i with
  | case1 i h hp ih =>
    rw [skipWhile, if_pos h, byte, Array.getElem?_eq_getElem h, Option.bind_eq_bind, Option.bind_some, if_pos hp, ih]
  | case2 i h hp =>
    rw [skipWhile, if_pos h, byte, Array.getElem?_eq_getElem h, Option.bind_eq_bind, Option.bind_some, if_neg hp]
  | case3 i h => rw [skipWhile, if_neg h]

theorem boundary_size (src : Bytes) : Boundary src src.size := ⟨Nat.le_refl _, by simp⟩

theorem boundary_zero {src : Bytes} {cs : List Char} (hsrc : src.toList = cs.flatMap encode) : Boundary src 0 := by
  refine ⟨Nat.zero_le _, ?_⟩
  rw [← Array.getElem?_toList, hsrc, ← List.head?_eq_getElem?]
  exact head?_chars cs

/-- a run of bytes in the rest of a text ends where it does in the text -/
theorem add_skipWhile (f : UInt8 → Bool) {src : Bytes} {p : Nat} (hp : p ≤ src.size) (a : Nat) :
    p + Respell.skipWhile f (src.extract p src.size) a = Respell.skipWhile f src (p + a) := by
  have hsize : (src.extract p src.size).size = src.size - p := by
    rw [Array.size_extract, Nat.min_self]
  have hget : ∀ k, src[p + k]? = (src.extract p src.size)[k]? := by
    intro k
    by_cases hk : k < src.size - p
    · exact getElem?_of_extract rfl (hsize ▸ hk)
    · rw [Array.getElem?_eq_none (by omega), Array.getElem?_eq_none (by omega)]
  have hstops := skipWhile_stops f (src.extract p src.size) a
  rw [← hget] at hstops
  refine (Respell.skipWhile_eq (Nat.add_le_add_left (le_skipWhile f _ a) p) ?_ hstops).symm
  intro k h1 h2
  have hpass : (src.extract p src.size)[k - p]?.any f = true := skipWhile_passes (i := a) (by omega) (by omega)
  rwa [← hget, Nat.add_sub_cancel' (by omega)] at hpass

/-- the first character of what follows an offset ends where the character at the offset does -/
theorem add_endOfChar {src : Bytes} {p : Nat} (hp : p ≤ src.size) :
    p + endOfChar (src.extract p src.size) 0 = endOfChar src p := by
  have hsize : (src.extract p src.size).size = src.size - p := by
    rw [Array.size_extract, Nat.min_self]
  unfold endOfChar
  by_cases hlt : p < src.size
  · rw [if_pos (by omega), if_pos hlt, add_skipWhile isContinuation hp]
  · rw [if_neg (by omega), if_neg hlt, Nat.add_zero]

/-! ## The scanner and the sweep -/

section chars

variable {src : Bytes} {cs : List Char} (hsrc : src.toList = cs.flatMap encode) {s : Scanner} {b : UInt8}
  (hb : src[s.pos]? = some b)
include hsrc hb

theorem skipEscape_eq (hslash : b = ascii '\\') : skipEscape src s = some (s.skipEscape src) := by
  have hboundary : Boundary src (s.pos + 1) := boundary_after_ascii hsrc hb (hslash ▸ by decide)
  unfold skipEscape
  rw [text_eq hboundary.1 hboundary (boundary_size src), Option.bind_eq_bind, Option.bind_some,
    add_endOfChar hboundary.1]
  rfl

theorem quotedStep_eq (quote : UInt8) : quotedStep src s quote b = some (s.quotedStep src quote b) := by
  unfold quotedStep Scanner.quotedStep
  by_cases hslash : b = ascii '\\'
  · rw [if_pos hslash, if_pos hslash, skipEscape_eq hsrc hb hslash]
  · rw [if_neg hslash, if_neg hslash]

theorem templateStep_eq : templateStep src s b = some (s.templateStep src b) := by
  unfold templateStep Scanner.templateStep
  by_cases hslash : b = ascii '\\'
  · rw [if_pos hslash, if_pos hslash, skipEscape_eq hsrc hb hslash]
  · rw [if_neg hslash, if_neg hslash]
    by_cases hquote : b = 0x60
    · rw [if_pos hquote, if_pos hquote]
    · rw [if_neg hquote, if_neg hquote, startsWith_two hb, Option.bind_eq_bind, Option.bind_some]
      simp only [decide_eq_true_eq]
      rfl

end chars

theorem opening?_eq {src : Bytes} {i : Nat} {b : UInt8} (hb : src[i]? = some b) :
    opening? src i b = some (Scanner.opening? src i b) := by
  unfold opening? Scanner.opening?
  by_cases hslash : b = ascii '/'
  · have h1 : b ≠ ascii '\'' := hslash ▸ by decide
    have h2 : b ≠ ascii '"' := hslash ▸ by decide
    have h3 : b ≠ 0x60 := hslash ▸ by decide
    rw [if_pos hslash, startsWith_two hb, startsWith_two hb, if_neg h1, if_neg h2, if_neg h3]
    simp only [Option.bind_eq_bind, Option.bind_some, decide_eq_true_eq]
    rfl
  · simp only [hslash, false_and, if_false]
    split_ifs <;> rfl

theorem holeStep_eq {s : Scanner} {depth : Nat} (h1 : 1 ≤ depth) (h2 : depth + 1 < UInt32.size) (b : UInt8) :
    holeStep s depth b = some (s.holeStep depth b) := by
  unfold holeStep Scanner.holeStep more less
  by_cases hopen : b = ascii '{'
  · rw [if_pos hopen, if_pos hopen, if_pos h2]
    rfl
  · rw [if_neg hopen, if_neg hopen]
    by_cases hclose : b = ascii '}'
    · rw [if_pos hclose, if_pos hclose, if_pos (Nat.lt_of_succ_le h1)]
      by_cases hlast : depth = 1
      · rw [if_pos hlast, if_pos (Nat.le_of_eq hlast)]
      · rw [if_neg hlast, if_neg (by omega)]
        rfl
    · rw [if_neg hclose, if_neg hclose]

section chars

variable {src : Bytes} {cs : List Char} (hsrc : src.toList = cs.flatMap encode) (hsize : src.size < UInt32.size)
include hsrc hsize

/-- **One step** of the strict scanner is a step of the scanner. -/
theorem step_eq {s : Scanner} (h : s.WellNested) (hlt : s.pos < src.size) :
    step src s = some (s.step src src[s.pos]) := by
  have hb : src[s.pos]? = some src[s.pos] := Array.getElem?_eq_getElem hlt
  generalize src[s.pos] = b at hb
  unfold step
  rw [byte, hb, Option.bind_eq_bind, Option.bind_some]
  cases hr : s.region with
  | lineComment => simp only [Scanner.step, hr]; rfl
  | blockComment =>
    simp only [Scanner.step, hr, startsWith_two hb, Option.bind_eq_bind, Option.bind_some, decide_eq_true_eq]
    rfl
  | singleQuoted => simp only [Scanner.step, hr, quotedStep_eq hsrc hb, Option.bind_eq_bind, Option.bind_some]; rfl
  | doubleQuoted => simp only [Scanner.step, hr, quotedStep_eq hsrc hb, Option.bind_eq_bind, Option.bind_some]; rfl
  | template => simp only [Scanner.step, hr, templateStep_eq hsrc hb, Option.bind_eq_bind, Option.bind_some]; rfl
  | normal =>
    simp only [Scanner.step, hr, codeStep, opening?_eq hb, Option.bind_eq_bind, Option.bind_some]
    cases Scanner.opening? src s.pos b <;> rfl
  | hole depth =>
    unfold Scanner.WellNested at h
    rw [hr] at h
    obtain ⟨h1, h2, -⟩ := h.of_hole
    simp only [Scanner.step, hr, codeStep, opening?_eq hb, Option.bind_eq_bind, Option.bind_some]
    cases Scanner.opening? src s.pos b with
    | none => exact holeStep_eq h1 (by omega) b
    | some opened => rfl

theorem nextLive_eq {s : Scanner} (h : s.WellNested) : nextLive src s = some (s.nextLive src) := by
  fun_induction Scanner.nextLive src s with
  | case1 s hs t ht =>
    rw [nextLive, if_pos hs, step_eq hsrc hsize h hs, Option.bind_eq_bind, Option.bind_some, if_pos ht]
  | case2 s hs t ht ih =>
    rw [nextLive, if_pos hs, step_eq hsrc hsize h hs, Option.bind_eq_bind, Option.bind_some, if_neg ht,
      if_pos (Scanner.lt_step src s _)]
    exact ih (wellNested_step h src _)
  | case3 s hs => rw [nextLive, if_neg hs]

end chars

theorem pos_of_nextLive {src : Bytes} {s t : Scanner} {i : Nat} (h : s.nextLive src = (some i, t)) : t.pos = i + 1 := by
  fun_induction Scanner.nextLive src s with
  | case1 s hs r hr =>
    obtain ⟨rfl, rfl⟩ : s.pos = i ∧ r.1 = t := by simpa using h
    exact step_pos_of_live hr
  | case2 s hs r hr ih => exact ih h
  | case3 s hs => cases h

/-- over a live byte the scanner moves ahead, and not past the end -/
theorem ahead_of_nextLive {src : Bytes} {s t : Scanner} {i : Nat} (h : s.nextLive src = (some i, t)) :
    s.pos < t.pos ∧ t.pos ≤ src.size := by
  obtain ⟨hle, hlt, -⟩ := Scanner.nextLive_some h
  rw [pos_of_nextLive h]
  exact ⟨Nat.lt_succ_of_le hle, hlt⟩

theorem seek_eq {src : Bytes} {s : Scanner} {p : Nat} (hsize : s.pos ≤ src.size) (hp : s.pos ≤ p) :
    seek src s p = some (s.skipTo src p) := by
  rw [seek, if_pos hp, Scanner.skipTo, Nat.max_eq_right (Nat.le_min.2 ⟨hp, hsize⟩)]

/-- what a rule does at a live byte, strictly: the same edits, and moves ahead to the offset it has read to -/
def Follows (src : Bytes) (t : Scanner) (found : Finding) (strict : Option (List Edit × List Nat)) : Prop :=
  ∃ seeks, strict = some (found.edits, seeks) ∧ seeks.foldlM (seek src) t = some (t.skipTo src found.readTo)

theorem skipTo_of_le {src : Bytes} {t : Scanner} {p : Nat} (hp : p ≤ t.pos) : t.skipTo src p = t := by
  have hmax : max t.pos (min p src.size) = t.pos := by omega
  rw [Scanner.skipTo, hmax]

theorem follows_stay {src : Bytes} {t : Scanner} {edits : List Edit} {p : Nat} (hp : p ≤ t.pos) :
    Follows src t ⟨edits, p⟩ (some (edits, [])) :=
  ⟨[], rfl, by rw [skipTo_of_le hp]; rfl⟩

theorem follows_move {src : Bytes} {t : Scanner} {edits : List Edit} {p : Nat} (hsize : t.pos ≤ src.size)
    (hp : t.pos ≤ p) : Follows src t ⟨edits, p⟩ (some (edits, [p])) := by
  refine ⟨[p], rfl, ?_⟩
  rw [List.foldlM_cons, seek_eq hsize hp]
  rfl

theorem follows_moves {src : Bytes} {t : Scanner} {edits : List Edit} {p q : Nat} (hsize : t.pos ≤ src.size)
    (hp : t.pos ≤ p) (hpq : p ≤ q) : Follows src t ⟨edits, q⟩ (some (edits, [p, q])) := by
  refine ⟨[p, q], rfl, ?_⟩
  have hstop : (t.skipTo src p).pos = min p src.size := Nat.max_eq_right (Nat.le_min.2 ⟨hp, hsize⟩)
  have hsecond : (t.skipTo src p).skipTo src q = t.skipTo src q := by
    simp only [Scanner.skipTo, Scanner.mk.injEq, and_true]
    omega
  rw [List.foldlM_cons, seek_eq hsize hp, Option.bind_eq_bind, Option.bind_some, List.foldlM_cons,
    seek_eq (by omega) (by omega), hsecond]
  rfl

theorem mapM_record {src : Bytes} {edits : List Edit}
    (h : ∀ e ∈ edits, e.start ≤ e.stop ∧ Boundary src e.start ∧ Boundary src e.stop) :
    edits.mapM (record src) = some edits := by
  induction edits with
  | nil => rfl
  | cons e rest ih =>
    rw [List.mapM_cons, record, if_pos (h e List.mem_cons_self), ih fun x hx => h x (List.mem_cons_of_mem _ hx)]
    rfl

/-- **The sweep.** Where a strict rule does at every live byte what the rule does there, and no edit breaks its
bounds, the strict sweep records what the sweep records. `I` is what the rule relies on. -/
theorem sweep_eq {src : Bytes} {cs : List Char} (hsrc : src.toList = cs.flatMap encode) (hsize : src.size < UInt32.size)
    {I : Scanner → Prop} {rule : Region → Nat → UInt8 → Finding}
    {strict : Region → Nat → Option (List Edit × List Nat)} (hI : ∀ s, I s → s.WellNested)
    (hrule : ∀ s i t b, I s → s.nextLive src = (some i, t) → src[i]? = some b →
      Follows src t (rule t.region i b) (strict t.region i) ∧ I (t.skipTo src (rule t.region i b).readTo))
    {s : Scanner} (h : I s)
    (hrecord : ∀ e ∈ Respell.sweep src rule s, e.start ≤ e.stop ∧ Boundary src e.start ∧ Boundary src e.stop) :
    sweep src strict s = some (Respell.sweep src rule s) := by
  fun_induction Respell.sweep src rule s with
  | case1 s t hn =>
    rw [sweep, nextLive_eq hsrc hsize (hI s h), hn]
    rfl
  | case2 s i t hn found ih =>
    obtain ⟨-, hlt, -⟩ := Scanner.nextLive_some hn
    have hb : src[i]? = some (src[i]?.getD 0) := by rw [Array.getElem?_eq_getElem hlt]; rfl
    obtain ⟨⟨seeks, (hstrict : _ = some (found.edits, seeks)), (hseeks : _ = some (t.skipTo src found.readTo))⟩,
      (hnext : I (t.skipTo src found.readTo))⟩ := hrule s i t _ h hn hb
    have hahead : s.pos < (t.skipTo src found.readTo).pos ∧ (t.skipTo src found.readTo).pos ≤ src.size := by
      obtain ⟨hmoved, hinside⟩ := ahead_of_nextLive hn
      exact ⟨Nat.lt_of_lt_of_le hmoved (Scanner.le_skipTo ..), Nat.max_le.2 ⟨hinside, Nat.min_le_right _ _⟩⟩
    rw [sweep, nextLive_eq hsrc hsize (hI s h), hn]
    simp only [Option.bind_eq_bind, Option.bind_some, hstrict,
      mapM_record fun e he => hrecord e (List.mem_append_left _ he), hseeks, if_pos hahead,
      ih hnext fun e he => hrecord e (List.mem_append_right _ he)]
    rfl

/-! ## The output -/

/-- the output from offset `cursor` of the source on, for edits in order -/
def render (src : Bytes) (cursor : Nat) : List Edit → Option Bytes
  | [] => if cursor < src.size then text src cursor src.size else some #[]
  | e :: rest => do
    let kept ← (if cursor < e.start then text src cursor e.start else some #[])
    let back ← render src e.stop rest
    return kept ++ (utf8 e.text ++ back)

theorem kept_eq {src : Bytes} {p q : Nat} (hp : Boundary src p) (hq : Boundary src q) :
    (if p < q then text src p q else some #[]) = some (src.extract p q) := by
  by_cases hlt : p < q
  · rw [if_pos hlt, text_eq (Nat.le_of_lt hlt) hp hq]
  · rw [if_neg hlt, Array.extract_empty_of_stop_le_start (Nat.le_of_not_lt hlt)]

/-- **The output.** Edits that begin and end between characters are written out. -/
theorem render_eq {src : Bytes} {p : Nat} {edits : List Edit} (hp : Boundary src p)
    (hedits : ∀ e ∈ edits, Boundary src e.start ∧ Boundary src e.stop) :
    render src p edits = some (written src (pieces src p edits)).toArray := by
  induction edits generalizing p with
  | nil => rw [render, kept_eq hp (boundary_size src), written_pieces_nil]
  | cons e rest ih =>
    obtain ⟨hstart, hstop⟩ := hedits e List.mem_cons_self
    rw [render, kept_eq hp hstart, ih hstop fun x hx => hedits x (List.mem_cons_of_mem e hx), written_pieces_cons]
    simp

end Respell.Strict
