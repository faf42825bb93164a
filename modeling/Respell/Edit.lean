/-
Edits. Rules never change a text; each records edits against it, and `applyEdits` carries all of them out in one sweep.
Edits are put in order of their ranges by a stable sort, so insertions at one offset keep the order in which they were
recorded and stand before a replacement that begins there. Two edits that touch do not clash; two that share a byte,
or an insertion strictly inside a replacement, do, and then nothing is carried out. Every recorded edit begins and ends
between two characters of the text; `applyEdits` relies on it and does not look.

The ordered edits cut the output into pieces (`pieces`): kept ranges of the source and put texts. The pieces' bytes
make up the output (`Piece.bytes`), and their widths lay out its segments (`layout`).
-/
import Respell.Segment

namespace Respell

/-- the four rules that record edits -/
inductive Rule where
  | importLine
  | keyword
  | attribute
  | member
deriving DecidableEq, Repr

/-- the rule's name in messages -/
def Rule.label : Rule → String
  | .importLine => "import"
  | .keyword => "keyword"
  | .attribute => "markup-attribute"
  | .member => "member-alias"

/-- put `text` in place of the source from `start` up to `stop`; with `start = stop` this is an insertion -/
structure Edit where
  rule : Rule
  start : Nat
  stop : Nat
  text : String
deriving DecidableEq, Repr

namespace Edit

def insertion (rule : Rule) (offset : Nat) (text : String) : Edit := ⟨rule, offset, offset, text⟩

/-- the order of ranges: by beginning, then by end -/
def precedes (a b : Edit) : Bool := a.start < b.start || (a.start == b.start && a.stop ≤ b.stop)

/-- edits in order of their ranges; edits of one range keep their order -/
def inOrder (edits : List Edit) : List Edit := edits.mergeSort precedes

/-- the first two neighbours that clash -/
def clash? : List Edit → Option (Edit × Edit)
  | a :: b :: rest => if b.start < a.stop then some (a, b) else clash? (b :: rest)
  | _ => none

end Edit

/-- an edit and where in the source it begins -/
structure Site where
  edit : Edit
  location : Location
deriving DecidableEq, Repr

/-- the edit's rule, its range, and the line and column of its beginning, counted from one -/
def Site.describe (s : Site) : String :=
  s.edit.rule.label ++ " pass " ++ toString s.edit.start ++ ".." ++ toString s.edit.stop ++
    " (" ++ toString (s.location.line + 1) ++ ":" ++ toString (s.location.column + 1) ++ ")"

structure Overlap where
  first : Site
  second : Site
deriving DecidableEq, Repr

def Overlap.message (o : Overlap) : String :=
  "overlapping edits: " ++ o.first.describe ++ " and " ++ o.second.describe

/-- a part of the output: a range of the source, or an edit's text -/
inductive Piece where
  | keep (start stop : Nat)
  | put (edit : Edit)
deriving DecidableEq, Repr

namespace Piece

def bytes (src : Bytes) : Piece → Bytes
  | .keep start stop => src.extract start stop
  | .put e => utf8 e.text

def source : Piece → Span
  | .keep start stop => ⟨start, stop⟩
  | .put e => ⟨e.start, e.stop⟩

def verbatim : Piece → Bool
  | .keep .. => true
  | .put _ => false

/-- the range from `start` up to `stop`, if it holds a byte -/
def keeping (start stop : Nat) : List Piece := if start < stop then [.keep start stop] else []

end Piece

/-- the pieces of the output from offset `cursor` of the source on, for edits in order -/
def pieces (src : Bytes) (cursor : Nat) : List Edit → List Piece
  | [] => Piece.keeping cursor src.size
  | e :: rest => Piece.keeping cursor e.start ++ .put e :: pieces src e.stop rest

/-- the segments of pieces laid out from output offset `at_` on -/
def layout (src : Bytes) (at_ : Nat) : List Piece → List Segment
  | [] => []
  | p :: rest =>
    let next := at_ + (p.bytes src).size
    ⟨⟨at_, next⟩, p.source, p.verbatim⟩ :: layout src next rest

/-- the output and its alignment with the source -/
structure Rendered where
  code : Bytes
  alignment : Alignment
deriving DecidableEq, Repr

/-- the output of edits that are in order -/
def render (src : Bytes) (edits : List Edit) : Rendered :=
  let parts := pieces src 0 edits
  let code := parts.foldl (fun out p => out ++ p.bytes src) #[]
  ⟨code, (layout src 0 parts).toArray, code.size, src.size, LineTable.ofText src⟩

/-- carry out edits recorded in any order, unless two of them clash -/
def applyEdits (src : Bytes) (edits : List Edit) : Except Overlap Rendered :=
  let ordered := Edit.inOrder edits
  match Edit.clash? ordered with
  | none => .ok (render src ordered)
  | some (a, b) =>
    let lines := LineTable.ofText src
    .error ⟨⟨a, lines.locate a.start⟩, ⟨b, lines.locate b.start⟩⟩

end Respell
