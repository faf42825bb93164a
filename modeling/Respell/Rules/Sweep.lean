/-
The sweep that all rules share. The scanner stops at each live byte; the rule says which edits it records there and up
to where it has read; the scanner goes on from that offset in the region it is in. What lies between is not scanned, so
a rule reads ahead only over bytes that open or close no region, or accepts that the scan goes on as if they did not.
-/
import Respell.Scanner
import Respell.Edit

namespace Respell

/-- what a rule makes of a live byte: the edits it records there and the offset up to which it has read -/
structure Finding where
  edits : List Edit
  readTo : Nat
deriving DecidableEq, Repr

/-- the edits that a rule records from the scanner's position to the end; `rule` is given the region after the live
byte, the byte's offset and the byte -/
def sweep (src : Bytes) (rule : Region → Nat → UInt8 → Finding) (s : Scanner) : List Edit :=
  match _h : s.nextLive src with
  | (none, _) => []
  | (some i, t) =>
    let found := rule t.region i (src[i]?.getD 0)
    found.edits ++ sweep src rule (t.skipTo src found.readTo)
termination_by src.size - s.pos
decreasing_by
  have h1 := Scanner.nextLive_some _h
  have h2 := Scanner.le_skipTo src t (rule t.region i (src[i]?.getD 0)).readTo
  omega

end Respell
