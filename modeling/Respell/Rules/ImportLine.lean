/-
The import rule. A line whose first word is `le`, outside every comment, string and template, is an import line if what
follows the word has one of two forms. With blanks for spaces and tabs, and a module name for a quote, one or more
bytes none of which is a quote, and the same quote again:

- side effect: blanks, a module name, blanks, `se`, a tail; the module name alone is imported, and the blanks and `se`
  after it go away;
- bindings: blanks, anything that begins with no blank, blanks, `se`, blanks, a module name, a tail; the first `se`
  that fits becomes `from`.

A tail is blanks and then the end of the line, a semicolon or a comment. Where the tail brings no semicolon of its own,
one is inserted after the statement. The forms are read from the bytes of the line alone.
-/
import Respell.Rules.Sweep
import Respell.Vocabulary

namespace Respell.ImportLine

open Vocabulary

def blanks (line : List UInt8) : Nat := (line.takeWhile isBlank).length

def isQuote (b : UInt8) : Bool := b == ascii '"' || b == ascii '\''

/-- the width of the module name that a line begins with, its quotes included -/
def moduleName? : List UInt8 → Option Nat
  | [] => none
  | q :: rest =>
    let name := rest.takeWhile fun b => !isQuote b
    if isQuote q ∧ name ≠ [] ∧ rest[name.length]? = some q then some (name.length + 2) else none

def beginsFrom (line : List UInt8) : Bool :=
  fromWord.toList.isPrefixOf line && !((line.drop fromWord.size).head?.any inWord)

/-- whether a line's tail brings a semicolon, if the line is a tail -/
def tail? (line : List UInt8) : Option Bool :=
  match line.drop (blanks line) with
  | [] => some false
  | b :: rest =>
    if b = ascii ';' then some true
    else if b = ascii '/' ∧ (rest.head? = some (ascii '/') ∨ rest.head? = some (ascii '*')) then some false
    else none

/-- an import line's parts, as offsets from the beginning of what was read -/
inductive Form where
  /-- the module name ends at `name`, the word `se` at `mark` -/
  | sideEffect (name mark : Nat) (closed : Bool)
  /-- the word `se` begins at `mark`, the module name ends at `name` -/
  | bindings (mark name : Nat) (closed : Bool)
deriving DecidableEq, Repr

/-- a module name, blanks, `se` and a tail -/
def sideEffect? (line : List UInt8) : Option Form := do
  let name ← moduleName? line
  let afterName := line.drop name
  let gap := blanks afterName
  guard (0 < gap && beginsFrom (afterName.drop gap))
  let mark := name + gap + fromWord.size
  let closed ← tail? (line.drop mark)
  return .sideEffect name mark closed

/-- blanks at `k`, `se`, blanks, a module name and a tail -/
def bindingsAt? (line : List UInt8) (k : Nat) : Option Form := do
  let gap := blanks (line.drop k)
  let mark := k + gap
  guard (0 < gap && beginsFrom (line.drop mark))
  let afterMark := line.drop (mark + fromWord.size)
  let space := blanks afterMark
  guard (0 < space)
  let name ← moduleName? (afterMark.drop space)
  let stop := mark + fromWord.size + space + name
  let closed ← tail? (line.drop stop)
  return .bindings mark stop closed

/-- the form of a line that begins with no blank; a side effect is preferred -/
def body? (line : List UInt8) : Option Form :=
  match sideEffect? line with
  | some form => some form
  | none => (List.range line.length).findSome? fun k => if k = 0 then none else bindingsAt? line k

/-- the edits of an import line whose word `le` stands at `i`, with `base` the offset at which its form was read -/
def Form.edits (i base : Nat) (form : Form) : List Edit :=
  let head : Edit := ⟨.importLine, i, i + importWord.size, "import"⟩
  let close (closed : Bool) (offset : Nat) : List Edit :=
    if closed then [] else [Edit.insertion .importLine offset ";"]
  match form with
  | .sideEffect name mark closed =>
    head :: ⟨.importLine, base + name, base + mark, ""⟩ :: close closed (base + mark)
  | .bindings mark name closed =>
    head :: ⟨.importLine, base + mark, base + mark + fromWord.size, "from"⟩ :: close closed (base + name)

/-- the edits of the line whose word `le` stands at `i`; none if it is no import line -/
def lineEdits (src : Bytes) (i : Nat) : List Edit :=
  let after := i + importWord.size
  let line := (src.extract after (skipWhile (fun b => !isLineEnd b) src after)).toList
  let gap := blanks line
  if gap = 0 then []
  else
    match body? (line.drop gap) with
    | some form => form.edits i (after + gap)
    | none => []

def rule (src : Bytes) (region : Region) (i : Nat) (b : UInt8) : Finding :=
  if inWord b then
    let stop := endOfWord src i
    if region = .normal ∧ src.extract i stop = importWord ∧ opensLine src i then ⟨lineEdits src i, stop⟩
    else ⟨[], stop⟩
  else ⟨[], i⟩

def edits (src : Bytes) : List Edit := sweep src (rule src) .start

end Respell.ImportLine
