/-
Lines of a text. A line ends after each line feed, so a text has one line more than it has line feeds. `LineTable`
holds the offsets at which lines begin; `locate` finds the line of an offset by bisection and gives the column as the
distance from the line's beginning. Offsets past the end stay on the last line.
-/
import Respell.Text.Bytes

namespace Respell

/-- the first number in `lo .. hi` that fails `p`, or `hi`; right when no number that fails `p` is followed by one
that holds it -/
def bisect (p : Nat → Bool) (lo hi : Nat) : Nat :=
  if lo < hi then
    let mid := (lo + hi) / 2
    if p mid then bisect p (mid + 1) hi else bisect p lo mid
  else lo
termination_by hi - lo

/-- a zero-based line and column -/
structure Location where
  line : Nat
  column : Nat
deriving DecidableEq, Repr

/-- the offsets at which the lines of a text begin, in increasing order -/
structure LineTable where
  starts : Array Nat
deriving DecidableEq, Repr

namespace LineTable

/-- one line begins at zero, and one after each line feed -/
def ofText (src : Bytes) : LineTable :=
  ⟨#[0] ++ (Array.range src.size).filterMap fun i => if src[i]? = some (ascii '\n') then some (i + 1) else none⟩

/-- the line on which `offset` lies, and its distance from that line's beginning -/
def locate (t : LineTable) (offset : Nat) : Location :=
  let line := bisect (fun i => t.starts[i]?.any (· ≤ offset)) 0 t.starts.size - 1
  ⟨line, offset - t.starts[line]?.getD 0⟩

end LineTable

end Respell
