/-
Marks: which characters of the output are mapped, and to which offset of the source. Every character of a verbatim
segment is marked, and of a replaced segment the first one. The place of a mark in the output is a line, ended by line
feeds, and a column in UTF-16 units.

`Places` answers for the source: its lines end at carriage returns, line feeds and the two together, a line without
characters at the end of the text does not count, and columns are again UTF-16 units. Offsets past the end go on from
the last line.
-/
import Respell.Segment

namespace Respell

/-- how many UTF-16 units the character beginning with byte `b` takes; a later byte of a character takes none -/
def utf16Width (b : UInt8) : Nat := if isContinuation b then 0 else if 0xF0 ≤ b then 2 else 1

def utf16Size (src : Bytes) : Nat := src.foldl (fun n b => n + utf16Width b) 0

/-- the place in the output after one more byte -/
def Location.after (l : Location) (b : UInt8) : Location :=
  if b = ascii '\n' then ⟨l.line + 1, 0⟩ else { l with column := l.column + utf16Width b }

/-- a character of the output: its place, and the offset of the source it comes from -/
structure Mark where
  place : Location
  source : Nat
deriving DecidableEq, Repr

namespace Mark

/-- marks for the characters of bytes that stand at `place` in the output and at `source` in the source -/
def each (place : Location) (source : Nat) : List UInt8 → List Mark
  | [] => []
  | b :: rest =>
    let marks := each (place.after b) (source + 1) rest
    if isContinuation b then marks else ⟨place, source⟩ :: marks

def ofSegment (s : Segment) (place : Location) (bytes : List UInt8) : List Mark :=
  if s.verbatim then each place s.source.start bytes
  else if bytes.isEmpty then [] else [⟨place, s.source.start⟩]

/-- the marks of segments that stand at `place` and after it -/
def ofSegments (code : Bytes) (place : Location) : List Segment → List Mark
  | [] => []
  | s :: rest =>
    let bytes := (code.extract s.output.start s.output.stop).toList
    ofSegment s place bytes ++ ofSegments code (bytes.foldl Location.after place) rest

def ofOutput (code : Bytes) (alignment : Alignment) : List Mark := ofSegments code ⟨0, 0⟩ alignment.segments.toList

end Mark

/-- a text with the offsets at which its lines begin, for finding UTF-16 columns -/
structure Places where
  text : Bytes
  starts : Array Nat
deriving DecidableEq, Repr

namespace Places

/-- the offsets after each line end of bytes that stand at `offset` -/
def breaks (offset : Nat) : List UInt8 → List Nat
  | [] => []
  | b :: rest =>
    if b = ascii '\r' then
      match rest with
      | c :: more =>
        if c = ascii '\n' then (offset + 2) :: breaks (offset + 2) more
        else (offset + 1) :: breaks (offset + 1) (c :: more)
      | [] => [offset + 1]
    else if b = ascii '\n' then (offset + 1) :: breaks (offset + 1) rest
    else breaks (offset + 1) rest

/-- the lines of a text; the end of the text begins none -/
def ofText (text : Bytes) : Places := ⟨text, ((0 :: breaks 0 text.toList).filter (· < text.size)).toArray⟩

/-- the line and UTF-16 column of an offset; a text without lines has none -/
def locate? (p : Places) (offset : Nat) : Option Location :=
  match bisect (fun i => p.starts[i]?.any (· ≤ offset)) 0 p.starts.size with
  | 0 => none
  | line + 1 =>
    let start := p.starts[line]?.getD 0
    some ⟨line, utf16Size (p.text.extract start offset) + (offset - p.text.size)⟩

end Places

end Respell
