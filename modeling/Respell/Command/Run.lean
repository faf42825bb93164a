/-
Running a command line over a tree of files: what is printed, the exit code, and the tree afterwards. A command line
that asks for nothing sensible exits with 2, a command that fails with 1 and a report of the failure.
-/
import Respell.Command.Arguments
import Respell.Project.Build

namespace Respell.Command

/-- what a run printed and how it ended -/
structure Result where
  exit : Nat
  stdout : Bytes
  stderr : String
deriving DecidableEq, Repr

def versionText : String := "neha 0.1.0\n"

def usageText : String :=
  "Usage: neha <COMMAND>\n\nCommands:\n" ++
  "  transform <INPUT> [-o, --output <OUTPUT>] [--source-map] [--inline-map]\n" ++
  "  build [--root <ROOT>]\n" ++
  "  check [--root <ROOT>]\n" ++
  "  help\n"

/-- print to standard output -/
def shown (out : Bytes) : Result := ⟨0, out, ""⟩

/-- print a line to standard error -/
def noted (line : String) : Result := ⟨0, #[], line ++ "\n"⟩

/-- respell one file. The output goes to a file or to standard output, and is there even if the map file then fails. -/
def runTransform (input : String) (output : Option String) (sourceMap inlineMap : Bool) (top : Node) : Result × Node :=
  let failed (out : Bytes) (f : Failure) : Result := ⟨1, out, f.report⟩
  match Disk.readText top input with
  | .error fault => (failed #[] (.file .read input fault), top)
  | .ok source =>
    match respell source ⟨some input, inlineMap⟩ with
    | .error overlap => (failed #[] (.overlap overlap), top)
    | .ok result =>
      let written := match output with
        | some path => (Disk.write top path result.code).mapError fun fault => Failure.file .write path fault
        | none => .ok top
      let out := if output.isSome then #[] else result.code
      match written with
      | .error failure => (failed #[] failure, top)
      | .ok top =>
        if sourceMap then
          let mapPath := Path.mapFile (output.getD input)
          match Disk.write top mapPath (utf8 result.map.toJson) with
          | .ok top => (⟨0, out, "Source map written to " ++ mapPath ++ "\n"⟩, top)
          | .error fault => (failed out (.file .write mapPath fault), top)
        else (shown out, top)

def finish {α : Type} (action : Action α) (top : Node) (report : α → Result) : Result × Node :=
  match (action.run).run top with
  | (.ok a, top) => (report a, top)
  | (.error failure, top) => (⟨1, #[], failure.report⟩, top)

/-- run a command; `accepts` is the reader of the host language that `check` asks -/
def run (accepts : String → Bytes → Bool) (command : Command) (top : Node) : Result × Node :=
  match command with
  | .version => (shown (utf8 versionText), top)
  | .help => (shown (utf8 usageText), top)
  | .transform input output sourceMap inlineMap => runTransform input output sourceMap inlineMap top
  | .build root =>
    let settings := Settings.load top root
    finish (Respell.build root settings) top fun summary =>
      noted ("Built " ++ toString summary.respelled ++ " file(s), copied " ++ toString summary.copied ++ " into " ++
        Path.join root settings.outDir)
  | .check root =>
    let settings := Settings.load top root
    finish (Respell.check accepts root settings) top fun refused =>
      if 0 < refused then ⟨1, #[], toString refused ++ " file(s) failed to parse\n"⟩
      else noted ("OK: " ++ Path.join root settings.rootDir)

def runLine (accepts : String → Bytes → Bool) (words : List String) (top : Node) : Result × Node :=
  match parse? words with
  | some command => run accepts command top
  | none => (⟨2, #[], usageText⟩, top)

end Respell.Command
