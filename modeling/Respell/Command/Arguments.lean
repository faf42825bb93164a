/-
The command line. A command is named first; options may stand before or after what it works on, as `--name value`,
`--name=value`, `-n value`, `-nvalue` or `-n=value`, and `--` ends them. Nothing may be given twice, no path is empty,
and a value that begins with a dash, the dash alone excepted, is none.
-/
namespace Respell

/-- what a command line asks for -/
inductive Command where
  | transform (input : String) (output : Option String) (sourceMap inlineMap : Bool)
  | build (root : String)
  | check (root : String)
  | version
  | help
deriving DecidableEq, Repr

namespace Command

/-- an option of a command: a flag, or one that takes a value -/
structure Switch where
  name : String
  letter : Option Char
  takesValue : Bool
deriving DecidableEq, Repr

/-- what the words of a command line give: values by the name of their option, and what stands alone -/
structure Given where
  values : List (String × String)
  operands : List String
deriving DecidableEq, Repr

/-- how the reading of words may end early -/
inductive Stop where
  | usage
  | help
deriving DecidableEq, Repr

/-- record a value; a second one for the same option and an empty one are refused -/
def Given.add (given : Given) (name value : String) : Except Stop Given :=
  if value = "" ∨ (given.values.lookup name).isSome then .error .usage
  else .ok { given with values := given.values ++ [(name, value)] }

/-- the value recorded for a flag -/
def flagMark : String := "given"

def Given.addOperand (limit : Nat) (given : Given) (word : String) : Except Stop Given :=
  if word = "" ∨ limit ≤ given.operands.length then .error .usage
  else .ok { given with operands := given.operands ++ [word] }

/-- whether a word can be an option's value when it stands alone -/
def isValue (word : String) : Bool := word.toList.head? != some '-' || word = "-"

/-- what one word says: an option with its value in the same word or none, the end of options, or an operand -/
inductive Word where
  | switch (s : Switch) (attached : Option String)
  | help
  | ends
  | operand
  | unknown
deriving DecidableEq, Repr

/-- a word that begins with two dashes -/
def longWord (switches : List Switch) (text : List Char) : Word :=
  let name := String.ofList (text.takeWhile (· ≠ '='))
  let attached := match text.dropWhile (· ≠ '=') with
    | [] => none
    | _ :: value => some (String.ofList value)
  match switches.find? (·.name = name) with
  | some s => .switch s attached
  | none => if name = "help" ∧ attached = none then .help else .unknown

/-- a word that begins with one dash; a value may follow its letter, with or without an equals sign -/
def shortWord (switches : List Switch) (letter : Char) (rest : List Char) : Word :=
  match switches.find? (·.letter = some letter) with
  | some s =>
    match rest with
    | [] => .switch s none
    | '=' :: value => .switch s (some (String.ofList value))
    | value => .switch s (some (String.ofList value))
  | none => if letter = 'h' then .help else .unknown

def classify (switches : List Switch) (word : String) : Word :=
  match word.toList with
  | ['-', '-'] => .ends
  | '-' :: '-' :: text => longWord switches text
  | ['-'] => .operand
  | '-' :: letter :: rest => shortWord switches letter rest
  | _ => .operand

/-- read the words of a command that takes at most `limit` operands -/
def readWords (switches : List Switch) (limit : Nat) (given : Given) : List String → Except Stop Given
  | [] => .ok given
  | word :: rest =>
    match classify switches word with
    | .operand => do readWords switches limit (← given.addOperand limit word) rest
    | .ends => rest.foldlM (Given.addOperand limit) given
    | .help => .error .help
    | .unknown => .error .usage
    | .switch s attached =>
      if s.takesValue then
        match attached, rest with
        | some value, rest => do readWords switches limit (← given.add s.name value) rest
        | none, value :: rest =>
          if isValue value then do readWords switches limit (← given.add s.name value) rest else .error .usage
        | none, [] => .error .usage
      else if attached = none then do readWords switches limit (← given.add s.name flagMark) rest
      else .error .usage

def transformSwitches : List Switch :=
  [⟨"output", some 'o', true⟩, ⟨"source-map", none, false⟩, ⟨"inline-map", none, false⟩]

def projectSwitches : List Switch := [⟨"root", none, true⟩]

def parseTransform (words : List String) : Except Stop Command := do
  let given ← readWords transformSwitches 1 ⟨[], []⟩ words
  match given.operands with
  | [input] =>
    return .transform input (given.values.lookup "output") (given.values.lookup "source-map").isSome
      (given.values.lookup "inline-map").isSome
  | _ => .error .usage

/-- the project directory that words give; the current one if they give none -/
def parseRoot (words : List String) : Except Stop String := do
  let given ← readWords projectSwitches 0 ⟨[], []⟩ words
  return (given.values.lookup "root").getD "."

def parseHelp : List String → Except Stop Command
  | [] => .ok .help
  | [name] => if ["transform", "build", "check", "help"].contains name then .ok .help else .error .usage
  | _ => .error .usage

def parseNamed (name : String) (words : List String) : Except Stop Command :=
  match name with
  | "transform" => parseTransform words
  | "build" => (parseRoot words).map .build
  | "check" => (parseRoot words).map .check
  | "help" => parseHelp words
  | _ => .error .usage

/-- what a command line asks for; `none` if it is none -/
def parse? : List String → Option Command
  | [] => none
  | word :: rest =>
    let outcome : Except Stop Command :=
      match word.toList with
      | '-' :: 'V' :: _ => .ok .version
      | '-' :: 'h' :: _ => .ok .help
      | _ =>
        if word = "--version" then .ok .version
        else if word = "--help" then .ok .help
        else parseNamed word rest
    match outcome with
    | .ok command => some command
    | .error .help => some .help
    | .error .usage => none

end Command

end Respell
