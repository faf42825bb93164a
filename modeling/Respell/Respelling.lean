/-
The respelling of one source. The four rules record their edits against the source, the edits are carried out at
once, and the map of the output is made from the alignment. It is a function of the text and the options alone, and a
malformed text (a string, comment, template or tag that is never closed) is respelled as far as it goes.
-/
import Respell.Rules.ImportLine
import Respell.Rules.Keyword
import Respell.Rules.Attribute
import Respell.Rules.Member
import Respell.SourceMap

namespace Respell

def allEdits (src : Bytes) : List Edit :=
  ImportLine.edits src ++ Keyword.edits src ++ Attribute.edits src ++ Member.edits src

/-- the name of the source in its map, and whether the map is appended to the output -/
structure Options where
  filename : Option String
  inlineMap : Bool
deriving DecidableEq, Repr

namespace Options

def default : Options := ⟨none, false⟩

def defaultName : String := "input.neha"

def name (o : Options) : String := o.filename.getD defaultName

def toJson (o : Options) : String :=
  Json.render (.object [("filename", SourceMap.stringOrNull o.filename), ("inline_source_map", .bool o.inlineMap)])

/-- the options that a JSON text holds; each may be missing -/
def ofJson? (text : String) : Option Options := do
  let record ← Json.record? ["filename", "inline_source_map"] text
  let filename ← Json.optional? record "filename" none (Json.orNull? Json.asString?)
  let inlineMap ← Json.optional? record "inline_source_map" false Json.asBool?
  return ⟨filename, inlineMap⟩

end Options

/-- an output with its map, and its alignment with the source; the alignment leaves an appended map out -/
structure Respelling where
  code : Bytes
  map : SourceMap
  alignment : Alignment
deriving DecidableEq, Repr

def respell (source : String) (options : Options) : Except Overlap Respelling := do
  let src := utf8 source
  let rendered ← applyEdits src (allEdits src)
  let map := SourceMap.ofOutput options.name source rendered.code rendered.alignment
  let trailer := if options.inlineMap then utf8 map.inlineComment else #[]
  return ⟨rendered.code ++ trailer, map, rendered.alignment⟩

end Respell
