/-
The difference of two trees, as steps that carry the first over to the second. What is not in the second is removed
first, entries before the directory they stand in; then directories are made and files written, each after the
directory it stands in. A file that is the same in both is in no step.
-/
import Respell.Project.Tree

namespace Respell

/-- one step from a tree to another; places are paths of names -/
inductive Change where
  | removeFile (place : List String)
  | removeDir (place : List String)
  | makeDir (place : List String)
  | writeFile (place : List String) (content : Bytes)
deriving DecidableEq, Repr

namespace Change

def removal (entry : List String × Option Bytes) : Change :=
  match entry.2 with
  | some _ => .removeFile entry.1
  | none => .removeDir entry.1

def making (entry : List String × Option Bytes) : Change :=
  match entry.2 with
  | some content => .writeFile entry.1 content
  | none => .makeDir entry.1

/-- whether a tree has an entry of the same kind at the same place -/
def keeps (top : Node) (entry : List String × Option Bytes) : Bool :=
  match top.get? entry.1 with
  | some node => node.isDir == entry.2.isNone
  | none => false

/-- whether a tree has the same entry -/
def holds (top : Node) (entry : List String × Option Bytes) : Bool :=
  match top.get? entry.1 with
  | some node => node.content? == entry.2
  | none => false

def between (before after : Node) : List Change :=
  (before.contents.reverse.filter fun e => !keeps after e).map removal ++
    (after.contents.filter fun e => !holds before e).map making

end Change

end Respell
