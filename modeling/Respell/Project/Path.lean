/-
Paths as texts. A path is kept as it is written; `pieces` are what stands between its slashes. Paths are compared by
their `components`: empty pieces do not count, nor does a `.` that is not the first piece.

`join` is textual. The file name of a path is its last component, if that names an entry, and its extension is what
follows the last dot, if that dot is not the first character.
-/
namespace Respell.Path

/-- a path has fewer bytes than this -/
def byteLimit : Nat := 4096

/-- a name has at most this many bytes -/
def nameLimit : Nat := 255

def fits (name : String) : Bool := name.utf8ByteSize ≤ nameLimit

/-- characters cut at each slash -/
def split : List Char → List (List Char)
  | [] => [[]]
  | c :: rest =>
    if c = '/' then [] :: split rest
    else
      match split rest with
      | [] => [[c]]
      | piece :: more => (c :: piece) :: more

/-- what stands between the slashes -/
def pieces (path : String) : List String := (split path.toList).map String.ofList

def isAbsolute (path : String) : Bool := path.toList.head? == some '/'

def endsInSlash (path : String) : Bool := path.toList.getLast? == some '/'

/-- the parts by which paths are compared; an absolute path begins with the part `/` -/
def components (path : String) : List String :=
  let named := (pieces path).filter fun p => p ≠ "" && p ≠ "."
  if isAbsolute path then "/" :: named
  else if (pieces path).head? = some "." then "." :: named
  else named

def same (a b : String) : Bool := components a == components b

/-- whether the components of `path` begin with those of `top` -/
def isBelow (path top : String) : Bool := (components top).isPrefixOf (components path)

/-- `path` taken from `base`: an absolute path stands for itself, and an empty one leaves a slash at the end -/
def join (base path : String) : String :=
  if isAbsolute path then path
  else if base = "" ∨ endsInSlash base then base ++ path
  else base ++ "/" ++ path

def fileName? (path : String) : Option String :=
  match (components path).getLast? with
  | none => none
  | some name => if name = "." ∨ name = ".." ∨ name = "/" then none else some name

/-- what follows the last dot of a name, unless that is the name's first character -/
def nameExtension? (name : String) : Option String :=
  match name.toList.reverse.span (· ≠ '.') with
  | (_, []) => none
  | (ext, _ :: stem) => if stem.isEmpty then none else some (String.ofList ext.reverse)

def extension? (path : String) : Option String := (fileName? path).bind nameExtension?

/-- pieces without those at the end that stand for nothing; the first piece stays -/
def trim (parts : List String) : List String :=
  match parts with
  | [] => []
  | first :: rest => first :: (rest.reverse.dropWhile fun p => p == "" || p == ".").reverse

def ofPieces (parts : List String) : String := if parts = [""] then "/" else "/".intercalate parts

/-- the path without its last component, as far as it is written; a path without components, or with the first slash
alone, has none -/
def parent? (path : String) : Option String :=
  match trim (pieces path) with
  | [] => none
  | [p] => if p = "" then none else some ""
  | parts => some (ofPieces (trim parts.dropLast))

/-- the path with another extension in place of `old`, its extension. It is cut behind the dot, and where that leaves
`..`, which is no name, nothing is added. -/
def withExtension (path old new : String) : String :=
  let stem := String.ofList (path.toList.take (path.length - old.length))
  if (fileName? stem).isSome then stem ++ new else stem

def mapFile (output : String) : String := output ++ ".map"

end Respell.Path
