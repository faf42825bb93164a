/-
Source maps, version 3: the record, its JSON text, and the map of an output. The text lists the fields in the order
`version`, `file` (left out when there is none), `sources`, `sourcesContent`, `names`, `mappings`. `ofJson?` reads it
back: `version`, `sources` and `mappings` must be given, a source's content may be `null`, and mappings are not checked.

The map of an output has one source, whose content it carries without a leading byte-order mark. An output without
characters has a map without sources.
-/
import Respell.Format.Json
import Respell.SourceMap.Mappings

namespace Respell

structure SourceMap where
  version : Nat
  file : Option String
  sources : List String
  sourcesContent : List (Option String)
  names : List String
  mappings : String
deriving DecidableEq, Repr

namespace SourceMap

/-- a string, or `null` when there is none -/
def stringOrNull : Option String → Json
  | some s => .string s
  | none => .null

def toValue (m : SourceMap) : Json :=
  .object (
    [("version", .number (toString m.version))] ++
    (m.file.map fun f => ("file", Json.string f)).toList ++
    [("sources", .array (m.sources.map .string)),
     ("sourcesContent", .array (m.sourcesContent.map stringOrNull)),
     ("names", .array (m.names.map .string)),
     ("mappings", .string m.mappings)])

def toJson (m : SourceMap) : String := m.toValue.render

def fields : List String := ["version", "file", "sources", "sourcesContent", "names", "mappings"]

def ofJson? (text : String) : Option SourceMap := do
  let record ← Json.record? fields text
  let version ← Json.required? record "version" (Json.asNatBelow? UInt32.size)
  let file ← Json.optional? record "file" none (Json.orNull? Json.asString?)
  let sources ← Json.required? record "sources" (Json.asList? Json.asString?)
  let contents ← Json.optional? record "sourcesContent" [] (Json.asList? (Json.orNull? Json.asString?))
  let names ← Json.optional? record "names" [] (Json.asList? Json.asString?)
  let mappings ← Json.required? record "mappings" Json.asString?
  return ⟨version, file, sources, contents, names, mappings⟩

/-- a URL that carries the map -/
def dataUrl (m : SourceMap) : String :=
  "data:application/json;charset=utf-8;base64," ++ String.ofList (Base64.encode (utf8 m.toJson).toList)

def comment (url : String) : String := "\n//# sourceMappingURL=" ++ url

def inlineComment (m : SourceMap) : String := comment m.dataUrl

/-- a source without its leading byte-order mark -/
def withoutMark (source : String) : String :=
  match source.toList with
  | '\ufeff' :: rest => String.ofList rest
  | _ => source

/-- the map of the output `code` of a source named `name` -/
def ofOutput (name source : String) (code : Bytes) (alignment : Alignment) : SourceMap :=
  let content := withoutMark source
  let marks := Mark.ofOutput code alignment
  let entries := Entry.ofMarks (Places.ofText (utf8 content)) marks
  { version := 3
    file := none
    sources := if marks.isEmpty then [] else [name]
    sourcesContent := if marks.isEmpty then [] else [some content]
    names := []
    mappings := Entry.mappings entries }

end SourceMap

end Respell
