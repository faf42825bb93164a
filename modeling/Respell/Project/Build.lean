/-
Commands on a whole project. `build` respells every source below the directory of sources into the output directory,
which is emptied first, and copies all other files; `sources` lists the sources; `check` respells each source and asks
a reader of the host language about the result.

A build walks the tree while it changes it: the entries of a directory are listed when the walk enters it, and a file
is read when the walk comes to it. The walk does not enter the output directory where that is written with the same
components as the walked path. Outputs that fall on one path replace each other in the order of the walk.
-/
import Respell.Project.Disk
import Respell.Project.Settings
import Respell.Markup
import Respell.Respelling

namespace Respell

def sourceExtension : String := "neha"

def isSource (path : String) : Bool := Path.extension? path == some sourceExtension

/-- how many files a build wrote anew and copied -/
structure Summary where
  respelled : Nat
  copied : Nat
deriving DecidableEq, Repr

/-- the directories of a build and its settings -/
structure Job where
  rootDir : String
  outDir : String
  settings : Settings
deriving DecidableEq, Repr

namespace Settings

/-- the settings of the project in a directory; without a file that can be read and holds settings, the default -/
def load (top : Node) (root : String) : Settings :=
  match Disk.readText top (Path.join root fileName) with
  | .ok text => (parse? text).getD default
  | .error _ => default

end Settings

namespace Job

def ofProject (root : String) (settings : Settings) : Job :=
  ⟨Path.join root settings.rootDir, Path.join root settings.outDir, settings⟩

/-- respell the source at `path` to `dest`, a path with the extension of sources; `relative` is its name in the map -/
def buildSource (job : Job) (path relative dest : String) : Action Unit := do
  let source ← Action.ask (Disk.readText · path) (.file .read path)
  let result ← match respell source ⟨some relative, job.settings.inlineMap⟩ with
    | .ok result => pure result
    | .error overlap => throw (.overlapIn path overlap)
  let output := Path.withExtension dest sourceExtension (outputExtension (utf8 source))
  let mapPath := Path.mapFile output
  if job.settings.sourceMaps then
    Action.change (Disk.write · mapPath (utf8 result.map.toJson)) (.file .write mapPath)
  let trailer :=
    if job.settings.sourceMaps && !job.settings.inlineMap then
      match Path.fileName? mapPath with
      | some name => utf8 (SourceMap.comment name)
      | none => #[]
    else #[]
  Action.change (Disk.write · output (result.code ++ trailer)) (.file .write output)

/-- carry the file at `path`, whose names from the directory of sources are `relative`, to the output directory -/
def buildFile (job : Job) (path : String) (relative : List String) (done : Summary) : Action Summary := do
  let name := "/".intercalate relative
  let dest := Path.join job.outDir name
  match Path.parent? dest with
  | some parent => Action.attempt (Disk.makeDirs · parent) (.file .create parent)
  | none => pure ()
  if isSource path then
    job.buildSource path name dest
    return { done with respelled := done.respelled + 1 }
  else
    Action.change (Disk.copy · path dest) (.file .copy path)
    return { done with copied := done.copied + 1 }

/-- carry over all files below the directory at `dir`, whose names from the directory of sources are `back`, last name
first, going at most `fuel` directories deep; each directory makes the path longer by two bytes or more -/
def buildDir (job : Job) : Nat → String → List String → Summary → Action Summary
  | 0, dir, _, _ => throw (.walk job.rootDir dir .nameTooLong)
  | fuel + 1, dir, back, done => do
    let node ← Action.ask (Node.find · dir) (.walk job.rootDir dir)
    node.entries.foldlM (fun done (name, child) => do
      let path := Path.join dir name
      if Path.same path job.outDir then return done
      else if child.isDir then job.buildDir fuel path (name :: back) done
      else job.buildFile path (name :: back).reverse done) done

def run (job : Job) : Action Summary := do
  if !Disk.isDir (← get) job.rootDir then throw (.rootNotDirectory job.rootDir)
  if Path.isBelow job.rootDir job.outDir then throw (.outContainsRoot job.outDir job.rootDir)
  if Disk.holds (← get) job.outDir then
    Action.attempt (Disk.removeTree · job.outDir) (.file .empty job.outDir)
  Action.attempt (Disk.makeDirs · job.outDir) (.file .create job.outDir)
  job.buildDir (Path.byteLimit / 2) job.rootDir [] ⟨0, 0⟩

end Job

def build (root : String) (settings : Settings) : Action Summary := (Job.ofProject root settings).run

/-- the paths of all sources below a directory, in the order of a walk; a path that is a file is its own walk. The walk
ends at a directory whose path is too long to be listed. -/
def sources (dir : String) : Action (List String) := do
  let node ← Action.ask (Node.find · dir) (.walk dir dir)
  match node with
  | .file _ => return [dir].filter isSource
  | .dir _ =>
    let place (names : List String) : String := Path.join dir ("/".intercalate names)
    let tooLong (names : List String) : Bool := Path.byteLimit ≤ (place names).utf8ByteSize
    match node.directories.find? tooLong with
    | some names => throw (.walk dir (place names) .nameTooLong)
    | none => return (node.files.map place).filter isSource

/-- how many sources of the project in a directory a reader of the host language refuses once they are respelled;
`accepts` is given the extension of the output and its bytes -/
def check (accepts : String → Bytes → Bool) (root : String) (settings : Settings) : Action Nat := do
  let paths ← sources (Path.join root settings.rootDir)
  paths.foldlM (fun refused path => do
    let source ← Action.ask (Disk.readText · path) (.file .read path)
    match respell source ⟨some path, false⟩ with
    | .error overlap => throw (.overlapIn path overlap)
    | .ok result =>
      return if accepts (outputExtension (utf8 source)) result.code then refused else refused + 1) 0

end Respell
