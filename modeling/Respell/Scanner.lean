/-
The scanner. It walks a text once, from left to right, and tells live code from the text of comments, quoted strings
and templates. A template hole `${ ... }` is live code again and may hold strings, comments and templates of its own,
so regions that an inner one interrupts wait on a stack (`suspended`) until the inner region closes.

`step` consumes one byte, one escape or one two-byte mark and says whether the byte it began at is live; `nextLive`
steps to the next live byte; `skipTo` moves ahead without reading. No text makes the scanner fail: a region that is
never closed lasts to the end, and a line feed closes a quoted string.

A hole counts its open braces without a bound. No more of them are open than bytes have been read, so in a text of less
than 2^32 bytes a count of 32 bits never overflows and is the same.
-/
import Respell.Text.Bytes

namespace Respell

/-- the lexical context of a position -/
inductive Region where
  /-- code outside every template hole -/
  | normal
  | lineComment
  | blockComment
  | singleQuoted
  | doubleQuoted
  /-- the text of a template, between its backquotes and holes -/
  | template
  /-- code in a template hole, with the number of braces open in it, the hole's own included -/
  | hole (depth : Nat)
deriving DecidableEq, Repr

/-- a position, the region it lies in, and the regions that one interrupts, innermost first -/
structure Scanner where
  pos : Nat
  region : Region
  suspended : List Region
deriving DecidableEq, Repr

namespace Scanner

def start : Scanner := ⟨0, .normal, []⟩

def advance (s : Scanner) (n : Nat) : Scanner := { s with pos := s.pos + n }

/-- consume `n` bytes that open region `r` -/
def enter (s : Scanner) (n : Nat) (r : Region) : Scanner := ⟨s.pos + n, r, s.region :: s.suspended⟩

/-- consume `n` bytes that close the region -/
def leave (s : Scanner) (n : Nat) : Scanner := ⟨s.pos + n, s.suspended.headD .normal, s.suspended.tail⟩

def skipEscape (src : Bytes) (s : Scanner) : Scanner := { s with pos := endOfChar src (s.pos + 1) }

/-- the region that byte `b` at offset `i` of live code opens, with the width of its opening mark -/
def opening? (src : Bytes) (i : Nat) (b : UInt8) : Option (Region × Nat) :=
  if b = ascii '/' ∧ src[i + 1]? = some (ascii '/') then some (.lineComment, 2)
  else if b = ascii '/' ∧ src[i + 1]? = some (ascii '*') then some (.blockComment, 2)
  else if b = ascii '\'' then some (.singleQuoted, 1)
  else if b = ascii '"' then some (.doubleQuoted, 1)
  else if b = 0x60 then some (.template, 1)
  else none

def quotedStep (src : Bytes) (s : Scanner) (quote b : UInt8) : Scanner :=
  if b = ascii '\\' then s.skipEscape src
  else if b = quote ∨ b = ascii '\n' then s.leave 1
  else s.advance 1

def templateStep (src : Bytes) (s : Scanner) (b : UInt8) : Scanner :=
  if b = ascii '\\' then s.skipEscape src
  else if b = 0x60 then s.leave 1
  else if b = ascii '$' ∧ src[s.pos + 1]? = some (ascii '{') then s.enter 2 (.hole 1)
  else s.advance 1

/-- a step over a live byte of a template hole; the brace that closes the hole is not live -/
def holeStep (s : Scanner) (depth : Nat) (b : UInt8) : Scanner × Bool :=
  if b = ascii '{' then ({ s.advance 1 with region := .hole (depth + 1) }, true)
  else if b = ascii '}' then
    if depth ≤ 1 then (s.leave 1, false) else ({ s.advance 1 with region := .hole (depth - 1) }, true)
  else (s.advance 1, true)

/-- one step at byte `b`, the byte at the scanner's position, with whether that byte is live -/
def step (src : Bytes) (s : Scanner) (b : UInt8) : Scanner × Bool :=
  match s.region with
  | .lineComment => (if b = ascii '\n' then s.leave 1 else s.advance 1, false)
  | .blockComment =>
    (if b = ascii '*' ∧ src[s.pos + 1]? = some (ascii '/') then s.leave 2 else s.advance 1, false)
  | .singleQuoted => (s.quotedStep src (ascii '\'') b, false)
  | .doubleQuoted => (s.quotedStep src (ascii '"') b, false)
  | .template => (s.templateStep src b, false)
  | .normal =>
    match opening? src s.pos b with
    | some (r, n) => (s.enter n r, false)
    | none => (s.advance 1, true)
  | .hole depth =>
    match opening? src s.pos b with
    | some (r, n) => (s.enter n r, false)
    | none => s.holeStep depth b

theorem opening?_width {src : Bytes} {i : Nat} {b : UInt8} {r : Region} {n : Nat}
    (h : opening? src i b = some (r, n)) : 0 < n := by
  unfold opening? at h
  repeat' split at h
  all_goals simp_all
  all_goals omega

theorem lt_quotedStep (src : Bytes) (s : Scanner) (quote b : UInt8) : s.pos < (s.quotedStep src quote b).pos := by
  unfold quotedStep
  repeat' split
  · exact le_endOfChar src (s.pos + 1)
  · exact Nat.lt_succ_self _
  · exact Nat.lt_succ_self _

theorem lt_templateStep (src : Bytes) (s : Scanner) (b : UInt8) : s.pos < (s.templateStep src b).pos := by
  unfold templateStep
  repeat' split
  · exact le_endOfChar src (s.pos + 1)
  · exact Nat.lt_succ_self _
  · simp only [enter]; omega
  · exact Nat.lt_succ_self _

theorem lt_holeStep (s : Scanner) (depth : Nat) (b : UInt8) : s.pos < (s.holeStep depth b).1.pos := by
  unfold holeStep
  repeat' split
  all_goals simp [advance, leave]

/-- every step consumes something -/
theorem lt_step (src : Bytes) (s : Scanner) (b : UInt8) : s.pos < (s.step src b).1.pos := by
  unfold step
  split
  · split <;> simp [advance, leave]
  · split <;> simp [advance, leave]
  · exact lt_quotedStep ..
  · exact lt_quotedStep ..
  · exact lt_templateStep ..
  · split
    · next h => simp [enter, opening?_width h]
    · simp [advance]
  · split
    · next h => simp [enter, opening?_width h]
    · exact lt_holeStep ..

/-- step to the next live byte and over it; `none` at the end of the text -/
def nextLive (src : Bytes) (s : Scanner) : Option Nat × Scanner :=
  if h : s.pos < src.size then
    let t := s.step src src[s.pos]
    if t.2 then (some s.pos, t.1) else nextLive src t.1
  else (none, s)
termination_by src.size - s.pos
decreasing_by
  have := lt_step src s src[s.pos]
  omega

/-- move ahead to offset `p` without reading what lies between; never back, and never past the end -/
def skipTo (src : Bytes) (s : Scanner) (p : Nat) : Scanner := { s with pos := max s.pos (min p src.size) }

theorem nextLive_some {src : Bytes} {s t : Scanner} {i : Nat} (h : s.nextLive src = (some i, t)) :
    s.pos ≤ i ∧ i < src.size ∧ i < t.pos := by
  fun_induction nextLive src s with
  | case1 s hs r hr =>
    obtain ⟨rfl, rfl⟩ : s.pos = i ∧ r.1 = t := by simpa using h
    exact ⟨Nat.le_refl _, hs, lt_step ..⟩
  | case2 s hs r hr ih =>
    have hlt : s.pos < r.1.pos := lt_step src s src[s.pos]
    obtain ⟨h1, h2, h3⟩ := ih h
    exact ⟨by omega, h2, h3⟩
  | case3 => simp at h

theorem le_skipTo (src : Bytes) (s : Scanner) (p : Nat) : s.pos ≤ (s.skipTo src p).pos := Nat.le_max_left _ _

/-- the live bytes from here to the end, each with the region after it, and the scanner at the end -/
def walk (src : Bytes) (s : Scanner) : List (Nat × Region) × Scanner :=
  match _h : s.nextLive src with
  | (none, t) => ([], t)
  | (some i, t) =>
    let rest := walk src t
    ((i, t.region) :: rest.1, rest.2)
termination_by src.size - s.pos
decreasing_by
  have := nextLive_some _h
  omega

end Scanner

/-- neighbouring live bytes with one region after them -/
structure Run where
  start : Nat
  stop : Nat
  region : Region
deriving DecidableEq, Repr

def Run.gather (live : List (Nat × Region)) : List Run :=
  live.foldr (fun (i, r) runs =>
    match runs with
    | run :: rest =>
      if run.start = i + 1 ∧ run.region = r then { run with start := i } :: rest else ⟨i, i + 1, r⟩ :: runs
    | [] => [⟨i, i + 1, r⟩]) []

end Respell
