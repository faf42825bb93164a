/-
Segments and the alignment of two texts. A change of a text is described by segments: each pairs a range of the output
with the range of the source it came from. A verbatim segment carries its bytes over unchanged; a replaced segment
stands as a whole for its source range.

`Alignment.sourceOffset` and `Alignment.outputOffset` carry offsets from one text to the other. Inside a verbatim
segment they keep the distance from the segment's beginning, inside a replaced one they give the beginning of the
other range, and the end of one text goes to the end of the other.
-/
import Respell.Text.Lines

namespace Respell

/-- the offsets from `start` up to, not including, `stop` -/
structure Span where
  start : Nat
  stop : Nat
deriving DecidableEq, Repr

/-- a range of the output and the range of the source that it came from -/
structure Segment where
  output : Span
  source : Span
  verbatim : Bool
deriving DecidableEq, Repr

/-- the segments of a changed text, in order, with both lengths and the lines of the source -/
structure Alignment where
  segments : Array Segment
  outputSize : Nat
  sourceSize : Nat
  sourceLines : LineTable
deriving DecidableEq, Repr

namespace Alignment

/-- the last segment whose range on the side `side` begins at or before `offset` -/
def segmentAt? (a : Alignment) (side : Segment → Span) (offset : Nat) : Option Segment :=
  match bisect (fun i => a.segments[i]?.any fun s => (side s).start ≤ offset) 0 a.segments.size with
  | 0 => none
  | i + 1 => a.segments[i]?

/-- the offset in the source from which the output has the byte at `offset` -/
def sourceOffset (a : Alignment) (offset : Nat) : Option Nat :=
  if a.outputSize < offset then none
  else if offset = a.outputSize then some a.sourceSize
  else (a.segmentAt? Segment.output offset).map fun s =>
    if s.verbatim then s.source.start + (offset - s.output.start) else s.source.start

def sourceLocation (a : Alignment) (offset : Nat) : Option Location :=
  (a.sourceOffset offset).map a.sourceLines.locate

/-- the offset in the output at which the source's byte at `offset` ended up -/
def outputOffset (a : Alignment) (offset : Nat) : Option Nat :=
  if a.sourceSize < offset then none
  else if offset = a.sourceSize then some a.outputSize
  else (a.segmentAt? Segment.source offset).map fun s =>
    if s.verbatim then s.output.start + (offset - s.source.start) else s.output.start

end Alignment

end Respell
