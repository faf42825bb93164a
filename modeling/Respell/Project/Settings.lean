/-
The settings of a project, read from its TOML file. Each of the four keys may be missing and then has its default; a
key with a value of another type makes the file invalid. Other keys, and keys below a header, do not count.
-/
import Respell.Format.Toml.Reader

namespace Respell

structure Settings where
  /-- where the sources are, from the project's directory -/
  rootDir : String
  /-- where the output goes, from the project's directory -/
  outDir : String
  /-- whether each output gets a map file beside it -/
  sourceMaps : Bool
  /-- whether each output carries its map itself -/
  inlineMap : Bool
deriving DecidableEq, Repr

namespace Settings

def default : Settings := ⟨"./src", "./dist", true, false⟩

def fileName : String := "neha.toml"

/-- a text under a key, or the value to take when the key is missing -/
def string? (entries : Toml.Entries) (key missing : String) : Option String :=
  match entries.lookup key with
  | none => some missing
  | some (.string s) => some s
  | some _ => none

/-- a truth value under a key, or the value to take when the key is missing -/
def boolean? (entries : Toml.Entries) (key : String) (missing : Bool) : Option Bool :=
  match entries.lookup key with
  | none => some missing
  | some (.boolean b) => some b
  | some _ => none

def parse? (text : String) : Option Settings := do
  let entries ← Toml.parse? text
  let rootDir ← string? entries "root_dir" default.rootDir
  let outDir ← string? entries "out_dir" default.outDir
  let sourceMaps ← boolean? entries "source_maps" default.sourceMaps
  let inlineMap ← boolean? entries "inline_source_map" default.inlineMap
  return ⟨rootDir, outDir, sourceMaps, inlineMap⟩

end Settings

end Respell
