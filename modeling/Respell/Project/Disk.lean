/-
Operations on a tree of files, as the system carries them out. Each takes a path text and gives the tree afterwards and
the outcome: what an operation changed before it was refused stays changed. An `Action` is a sequence of operations
that ends at the first failure.
-/
import Respell.Project.Tree

namespace Respell

/-- the tree after an operation, and its outcome -/
abbrev Outcome (α : Type) := Node × Except Fault α

namespace Disk

def holds (top : Node) (path : String) : Bool := (top.find path).toBool

def isDir (top : Node) (path : String) : Bool :=
  match top.find path with
  | .ok node => node.isDir
  | .error _ => false

def readBytes (top : Node) (path : String) : Except Fault Bytes :=
  match top.find path with
  | .ok (.file content) => .ok content
  | .ok (.dir _) => .error .isDirectory
  | .error fault => .error fault

def readText (top : Node) (path : String) : Except Fault String :=
  match readBytes top path with
  | .error fault => .error fault
  | .ok content =>
    match content.string? with
    | some text => .ok text
    | none => .error .notText

/-- write a file, in place of one that is there -/
def write (top : Node) (path : String) (content : Bytes) : Except Fault Node :=
  match top.target path with
  | .error fault => .error fault
  | .ok .directory => .error .isDirectory
  | .ok (.entry place name there slashed) =>
    if slashed || there.any Node.isDir then .error .isDirectory
    else if !Path.fits name then .error .nameTooLong
    else .ok (top.put (place ++ [name]) (.file content))

/-- copy a file. The copy is emptied before the file is read, so a file that is copied onto itself is left empty. -/
def copy (top : Node) (path dest : String) : Except Fault Node := do
  let _ ← readBytes top path
  let emptied ← write top dest #[]
  write emptied dest (← readBytes emptied path)

def makeDir (top : Node) (path : String) : Except Fault Node :=
  match top.target path with
  | .error fault => .error fault
  | .ok .directory => .error .alreadyExists
  | .ok (.entry place name there _) =>
    if there.isSome then .error .alreadyExists
    else if !Path.fits name then .error .nameTooLong
    else .ok (top.put (place ++ [name]) .empty)

/-- make a directory; one that is there will do -/
def ensureDir (top : Node) (path : String) : Outcome Unit :=
  match makeDir top path with
  | .ok top => (top, .ok ())
  | .error fault => (top, if isDir top path then .ok () else .error fault)

/-- make a directory and those above it that are missing, in at most `fuel` steps up -/
def makeDirsWithin : Nat → Node → String → Outcome Unit
  | 0, top, _ => (top, .error .nameTooLong)
  | fuel + 1, top, path =>
    if path = "" then (top, .ok ())
    else
      match makeDir top path with
      | .ok top => (top, .ok ())
      | .error .notFound =>
        match makeDirsWithin fuel top ((Path.parent? path).getD "") with
        | (top, .ok ()) => ensureDir top path
        | (top, .error fault) => (top, .error fault)
      | .error fault => (top, if isDir top path then .ok () else .error fault)

/-- make a directory and those above it that are missing; a path has no more parents than pieces -/
def makeDirs (top : Node) (path : String) : Outcome Unit :=
  makeDirsWithin ((Path.pieces path).length + 1) top path

/-- add a file, or a directory where no content is given, and make the directories above it -/
def lay (top : Node) (path : String) : Option Bytes → Node
  | none => (makeDirs top path).1
  | some content =>
    let top := (makeDirs top ((Path.parent? path).getD "")).1
    (write top path content).toOption.getD top

/-- the tree of files and directories given by their paths -/
def ofListing (listing : List (String × Option Bytes)) : Node :=
  listing.foldl (fun top (path, content) => lay top path content) .empty

/-- remove a directory with all that is in it. A path that ends in `.` names a directory that cannot be removed itself,
and one that ends in `..` may have lost its way by then; what is in the directory is gone all the same. -/
def removeTree (top : Node) (path : String) : Outcome Unit :=
  match top.locate path with
  | .error fault => (top, .error fault)
  | .ok way =>
    match Node.Way.here top way with
    | .file _ => (top, .error .notDirectory)
    | .dir _ =>
      let emptied := top.put way.names .empty
      match (Path.pieces path).reverse.dropWhile (· = "") with
      | [] => (emptied, .error .invalidArgument)
      | "." :: _ => (emptied, .error .invalidArgument)
      | ".." :: _ => (emptied, if holds emptied path then .error .notEmpty else .ok ())
      | _ => (emptied.erase way.names, .ok ())

end Disk

/-- operations in sequence, up to the first failure -/
abbrev Action (α : Type) := ExceptT Failure (StateM Node) α

namespace Action

/-- an operation that changes nothing -/
def ask {α : Type} (f : Node → Except Fault α) (explain : Fault → Failure) : Action α := do
  match f (← get) with
  | .ok a => return a
  | .error fault => throw (explain fault)

/-- an operation that gives the tree afterwards or is refused without a change -/
def change (f : Node → Except Fault Node) (explain : Fault → Failure) : Action Unit := do
  match f (← get) with
  | .ok top => set top
  | .error fault => throw (explain fault)

/-- an operation that may have changed the tree when it is refused -/
def attempt (f : Node → Outcome Unit) (explain : Fault → Failure) : Action Unit := do
  let (top, outcome) := f (← get)
  set top
  match outcome with
  | .ok () => return ()
  | .error fault => throw (explain fault)

end Action

end Respell
