/-
Directory trees. A tree holds files and directories only: there are no links in it, and names are texts. A directory
lists its entries in increasing order of their names, and no name twice; `put` keeps that order, which is the byte
order of the names. `contents` lists a tree in the order of a walk: each directory's entries in order, a directory's
own contents right after it.

`follow` finds what a path means in a tree. It goes piece by piece: an empty piece and `.` stay, `..` goes up (and
stays at the top), and each of them, like a name, needs a directory to start from. A name that is too long for an entry
is refused where it is looked up. A path may mean what is there (`find`) or where something is to be made (`target`).
-/
import Respell.Text.Bytes
import Respell.Project.Failure
import Respell.Project.Path

namespace Respell

inductive Node where
  | file (content : Bytes)
  | dir (entries : List (String × Node))
deriving Repr

namespace Node

def empty : Node := .dir []

def isDir : Node → Bool
  | .dir _ => true
  | .file _ => false

def entries : Node → List (String × Node)
  | .dir es => es
  | .file _ => []

def get? : Node → List String → Option Node
  | node, [] => some node
  | .dir es, name :: names => (es.lookup name).bind fun child => get? child names
  | .file _, _ :: _ => none

/-- add or replace an entry in order -/
def insertEntry (name : String) (node : Node) : List (String × Node) → List (String × Node)
  | [] => [(name, node)]
  | (other, child) :: rest =>
    if name < other then (name, node) :: (other, child) :: rest
    else if name = other then (name, node) :: rest
    else (other, child) :: insertEntry name node rest

/-- put a node at the end of a path of names whose directories are there -/
def put : Node → List String → Node → Node
  | _, [], new => new
  | .dir es, name :: names, new => .dir (insertEntry name (put ((es.lookup name).getD empty) names new) es)
  | .file content, _ :: _, _ => .file content

def erase : Node → List String → Node
  | node, [] => node
  | .dir es, [name] => .dir (es.filter fun e => e.1 ≠ name)
  | .dir es, name :: next :: names =>
    match es.lookup name with
    | some child => .dir (insertEntry name (erase child (next :: names)) es)
    | none => .dir es
  | .file content, _ :: _ => .file content

def content? : Node → Option Bytes
  | .file content => some content
  | .dir _ => none

mutual

/-- everything below a node in the order of a walk, each with its path of names; a directory has no content -/
def contents : Node → List (List String × Option Bytes)
  | .file _ => []
  | .dir es => allContents es

/-- everything in and below some entries -/
def allContents : List (String × Node) → List (List String × Option Bytes)
  | [] => []
  | e :: rest => entryContents e ++ allContents rest

def entryContents : String × Node → List (List String × Option Bytes)
  | (name, node) => ([name], node.content?) :: (contents node).map fun e => (name :: e.1, e.2)

end

/-- the paths of names of the files below a node, in the order of a walk -/
def files (node : Node) : List (List String) := (contents node).filterMap fun e => e.2.map fun _ => e.1

def directories (node : Node) : List (List String) :=
  (contents node).filterMap fun e => if e.2.isNone then some e.1 else none

/-- the way to a node: the entries passed on it, last first -/
abbrev Way := List (String × Node)

def Way.here (top : Node) : Way → Node
  | [] => top
  | (_, node) :: _ => node

def Way.names (way : Way) : List String := (way.map (·.1)).reverse

/-- go on from the end of a way by the pieces of a path -/
def follow (top : Node) : List String → Way → Except Fault Way
  | [], way => .ok way
  | piece :: rest, way =>
    match Way.here top way with
    | .file _ => .error .notDirectory
    | .dir es =>
      if piece = "" ∨ piece = "." then follow top rest way
      else if piece = ".." then follow top rest way.tail
      else if !Path.fits piece then .error .nameTooLong
      else
        match es.lookup piece with
        | some child => follow top rest ((piece, child) :: way)
        | none => .error .notFound

/-- the pieces of a path that can mean something: it holds no NUL, is not empty and not too long -/
def legalPieces (path : String) : Except Fault (List String) :=
  if path.toList.contains '\x00' then .error .nulInPath
  else if path = "" then .error .notFound
  else if Path.byteLimit ≤ path.utf8ByteSize then .error .nameTooLong
  else .ok (Path.pieces path)

def locate (top : Node) (path : String) : Except Fault Way :=
  match legalPieces path with
  | .ok pieces => follow top pieces []
  | .error fault => .error fault

/-- what a path means -/
def find (top : Node) (path : String) : Except Fault Node := (top.locate path).map (Way.here top)

/-- where a path leads for what is to be made there -/
inductive Target where
  /-- `name` in the directory at `place`, where `there` stands now; a slash follows the name if `slashed` -/
  | entry (place : List String) (name : String) (there : Option Node) (slashed : Bool)
  /-- the path ends in `.`, `..` or a slash at the top, and means a directory that is there -/
  | directory

/-- where a path leads for what is to be made there: everything but its last name must be there -/
def target (top : Node) (path : String) : Except Fault Target :=
  match legalPieces path with
  | .error fault => .error fault
  | .ok pieces =>
    let body := (pieces.reverse.dropWhile (· = "")).reverse
    match body.getLast? with
    | none => .ok .directory
    | some name =>
      match follow top (body.dropLast ++ ["."]) [] with
      | .error fault => .error fault
      | .ok way =>
        if name = "." ∨ name = ".." then .ok .directory
        else .ok (.entry way.names name ((Way.here top way).entries.lookup name) (Path.endsInSlash path))

end Node

end Respell
