/-
The program. It asks `Command.runLine` what a command line does to a tree of files, and does that to the working
directory: here is only the reading of files, the printing, and the carrying out of changes.

The entries of the working directory that a command may see are named on standard input, one path on a line, a
directory with a slash at its end. A command that needs no files does not read it.
-/
import Respell.Command.Run
import Respell.Project.Change

namespace Respell

/-- the lines of standard input -/
partial def readLines (stdin : IO.FS.Stream) (lines : List String) : IO (List String) := do
  let line ← stdin.getLine
  if line = "" then return lines.reverse
  else readLines stdin (String.ofList (line.toList.filter (· ≠ '\n')) :: lines)

def Command.usesFiles : Command → Bool
  | .transform .. => true
  | .build _ => true
  | .check _ => true
  | .version => false
  | .help => false

def readTree : IO Node := do
  let paths ← readLines (← IO.getStdin) []
  let listing ← (paths.filter (· ≠ "")).mapM fun path => do
    if Path.endsInSlash path then return (path, none)
    else return (path, some (← IO.FS.readBinFile path).data)
  return Disk.ofListing listing

def Change.perform (change : Change) : IO Unit :=
  let path (place : List String) : String := "/".intercalate place
  match change with
  | .removeFile place => IO.FS.removeFile (path place)
  | .removeDir place => IO.FS.removeDir (path place)
  | .makeDir place => IO.FS.createDir (path place)
  | .writeFile place content => IO.FS.writeBinFile (path place) ⟨content⟩

/-- run a command line; no reader of the host language is at hand, so `check` accepts every output -/
def runMain (args : List String) : IO UInt32 := do
  let before ← if (Command.parse? args).any Command.usesFiles then readTree else pure .empty
  let (result, after) := Command.runLine (fun _ _ => true) args before
  (Change.between before after).forM Change.perform
  (← IO.getStdout).write ⟨result.stdout⟩
  (← IO.getStderr).putStr result.stderr
  return result.exit.toUInt32

end Respell

def main (args : List String) : IO UInt32 := Respell.runMain args
