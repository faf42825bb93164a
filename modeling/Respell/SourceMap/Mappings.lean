/-
The `mappings` text of a source map, version 3. Each entry is written as four differences to the entry before it:
output column (counted anew on each output line), source index (always zero), source line, source column. Entries of a
line are separated by commas, and a semicolon ends each line before the next entry's.
-/
import Respell.SourceMap.Mark
import Respell.SourceMap.Vlq

namespace Respell

/-- a place in the output and the place in the source it comes from -/
structure Entry where
  output : Location
  source : Location
deriving DecidableEq, Repr

namespace Entry

/-- the entries of marks; a mark without a place in the source makes none -/
def ofMarks (places : Places) (marks : List Mark) : List Entry :=
  marks.filterMap fun m => (places.locate? m.source).map fun source => ⟨m.place, source⟩

/-- what stands between two entries -/
def separator (last next : Entry) : List Char :=
  if last.output.line = next.output.line then [','] else List.replicate (next.output.line - last.output.line) ';'

/-- the four differences -/
def fields (last next : Entry) : List Char :=
  let column := if last.output.line = next.output.line then last.output.column else 0
  Vlq.encode ((next.output.column : Int) - column) ++ Vlq.encode 0 ++
    Vlq.encode ((next.source.line : Int) - last.source.line) ++
    Vlq.encode ((next.source.column : Int) - last.source.column)

/-- entries after the entry `last` -/
def charsAfter (last : Entry) : List Entry → List Char
  | [] => []
  | e :: rest => separator last e ++ fields last e ++ charsAfter e rest

/-- the text of entries; the differences of the first one are taken to zero -/
def mappings : List Entry → String
  | [] => ""
  | e :: rest =>
    let zero : Entry := ⟨⟨0, 0⟩, ⟨0, 0⟩⟩
    String.ofList (List.replicate e.output.line ';' ++ fields zero e ++ charsAfter e rest)

end Entry

end Respell
