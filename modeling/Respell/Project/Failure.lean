/-
What can go wrong with files. A `Fault` is the system's answer to one operation on one path; a `Failure` is a command
that came to nothing, with the chain of its causes, outermost first.
-/
import Respell.Edit

namespace Respell

/-- why an operation on a path was refused -/
inductive Fault where
  | notFound
  | alreadyExists
  | notDirectory
  | isDirectory
  | invalidArgument
  | nameTooLong
  | notEmpty
  /-- the path holds the character that ends a path for the system -/
  | nulInPath
  /-- the file was read as text and is not UTF-8 -/
  | notText
deriving DecidableEq, Repr

def Fault.message : Fault → String
  | .notFound => "No such file or directory (os error 2)"
  | .alreadyExists => "File exists (os error 17)"
  | .notDirectory => "Not a directory (os error 20)"
  | .isDirectory => "Is a directory (os error 21)"
  | .invalidArgument => "Invalid argument (os error 22)"
  | .nameTooLong => "File name too long (os error 36)"
  | .notEmpty => "Directory not empty (os error 39)"
  | .nulInPath => "file name contained an unexpected NUL byte"
  | .notText => "stream did not contain valid UTF-8"

/-- what a command was doing with a path -/
inductive Task where
  | read
  | write
  | copy
  | create
  | empty
deriving DecidableEq, Repr

def Task.label : Task → String
  | .read => "read"
  | .write => "write"
  | .copy => "copy"
  | .create => "create"
  | .empty => "empty"

/-- why a command came to nothing -/
inductive Failure where
  /-- the directory of sources is none -/
  | rootNotDirectory (rootDir : String)
  /-- emptying the output directory would remove the sources -/
  | outContainsRoot (outDir rootDir : String)
  | file (task : Task) (path : String) (fault : Fault)
  /-- the walk through `dir` was refused at `path` -/
  | walk (dir path : String) (fault : Fault)
  /-- the edits of a source clash -/
  | overlap (overlap : Overlap)
  /-- the edits of the source at `path` clash -/
  | overlapIn (path : String) (overlap : Overlap)
deriving DecidableEq, Repr

namespace Failure

/-- the messages, each explained by the next -/
def chain : Failure → List String
  | .rootNotDirectory rootDir => ["root_dir " ++ rootDir ++ " is not a directory"]
  | .outContainsRoot outDir rootDir => ["out_dir " ++ outDir ++ " must not contain root_dir " ++ rootDir]
  | .file task path fault => ["failed to " ++ task.label ++ " " ++ path, fault.message]
  | .walk dir path fault =>
    ["failed to walk " ++ dir, "IO error for operation on " ++ path ++ ": " ++ fault.message, fault.message]
  | .overlap o => [o.message]
  | .overlapIn path o => ["failed to transform " ++ path, o.message]

def message (f : Failure) : String := ": ".intercalate f.chain

/-- a text with all its lines but the first moved in by `margin` -/
def hang (margin text : String) : String :=
  String.ofList (text.toList.flatMap fun c => if c = '\n' then c :: margin.toList else [c])

/-- all messages on lines of their own: several causes are numbered, and the lines of a cause begin in one column -/
def report (f : Failure) : String :=
  match f.chain with
  | [] => ""
  | first :: causes =>
    let shown := match causes with
      | [] => []
      | [c] => ["\n", "Caused by:\n", "    " ++ hang "    " c ++ "\n"]
      | cs => "\n" :: "Caused by:\n" :: cs.mapIdx fun i c => "    " ++ toString i ++ ": " ++ hang "       " c ++ "\n"
    "Error: " ++ first ++ "\n" ++ String.join shown

end Failure

end Respell
