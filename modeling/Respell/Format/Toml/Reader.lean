/-
A reader for TOML 1.0 documents. Each function reads one production from the beginning of a text and gives what it read
and the rest, or `none` where the text does not fit; `parse?` reads a whole document into its entries.

Beyond the grammar it holds to these limits: an integer fits in 64 bits with sign, a date exists in the calendar, a
decimal does not round to positive infinity, and values and dotted keys nest less than `nestingLimit` deep.
-/
import Respell.Format.Digits
import Respell.Format.Toml.Table

namespace Respell.Toml

open Reading

/-! ## Characters and lines -/

def isBlank (c : Char) : Bool := c == ' ' || c == '\t'

def skipBlank (cs : List Char) : List Char := cs.dropWhile isBlank

/-- a character that may stand in a comment, and in a string unless the string gives it a meaning -/
def isPlain (c : Char) : Bool := c == '\t' || (32 ≤ c.toNat && c.toNat ≠ 127)

/-- a line end: a line feed, with or without a carriage return before it -/
def newline? : List Char → Option (List Char)
  | '\n' :: rest => some rest
  | '\r' :: '\n' :: rest => some rest
  | _ => none

def skipComment : List Char → List Char
  | '#' :: rest => rest.dropWhile isPlain
  | cs => cs

/-- what may follow on a line: blanks, a comment, and the line's end or the document's -/
def endLine? (cs : List Char) : Option (List Char) :=
  match skipComment (skipBlank cs) with
  | [] => some []
  | rest => newline? rest

/-- blanks and line ends, in at most `fuel` steps -/
def skipLines : Nat → List Char → List Char
  | 0, cs => cs
  | fuel + 1, cs =>
    match newline? (skipBlank cs) with
    | some rest => skipLines fuel rest
    | none => skipBlank cs

/-- blanks, comments and line ends, in at most `fuel` steps; a comment reaches to a line end -/
def skipTrivia? : Nat → List Char → Option (List Char)
  | 0, cs => some cs
  | fuel + 1, cs =>
    match skipBlank cs with
    | '#' :: rest => (newline? (rest.dropWhile isPlain)).bind (skipTrivia? fuel)
    | rest =>
      match newline? rest with
      | some more => skipTrivia? fuel more
      | none => some rest

/-! ## Strings -/

def codePoint? (n : Nat) (cs : List Char) : Option (Char × List Char) := do
  let (code, rest) ← hexNumber? n cs
  guard (code < 0xD800 || (0xE000 ≤ code && code < 0x110000))
  return (Char.ofNat code, rest)

/-- the character of an escape whose backslash has been read -/
def escaped? : List Char → Option (Char × List Char)
  | 'b' :: rest => some ('\x08', rest)
  | 't' :: rest => some ('\t', rest)
  | 'n' :: rest => some ('\n', rest)
  | 'f' :: rest => some ('\x0c', rest)
  | 'r' :: rest => some ('\r', rest)
  | '"' :: rest => some ('"', rest)
  | '\\' :: rest => some ('\\', rest)
  | 'u' :: rest => codePoint? 4 rest
  | 'U' :: rest => codePoint? 8 rest
  | _ => none

/-- a string in double quotes, after the opening quote -/
def basic? : Nat → List Char → Option (List Char × List Char)
  | 0, _ => none
  | _ + 1, [] => none
  | _ + 1, '"' :: rest => some ([], rest)
  | fuel + 1, '\\' :: rest => do
    let (c, rest) ← escaped? rest
    let (s, rest) ← basic? fuel rest
    return (c :: s, rest)
  | fuel + 1, c :: rest =>
    if isPlain c then (basic? fuel rest).map fun (s, rest) => (c :: s, rest) else none

/-- a string in single quotes, after the opening quote -/
def literal? (cs : List Char) : Option (List Char × List Char) :=
  let body := cs.takeWhile fun c => isPlain c && c ≠ '\''
  match cs.drop body.length with
  | '\'' :: rest => some (body, rest)
  | _ => none

/-- the end of a string in triple quotes: three quotes, of which up to two more before them belong to the string -/
def closing? (quote : Char) (cs : List Char) : Option (List Char × List Char) :=
  let n := (cs.takeWhile (· = quote)).length
  if n < 3 then none
  else
    let extra := min (n - 3) 2
    some (List.replicate extra quote, cs.drop (3 + extra))

/-- a string in triple quotes, after the opening quotes and the line end that may follow them; `escapes` says whether
a backslash has a meaning -/
def multiline? (quote : Char) (escapes : Bool) : Nat → List Char → Option (List Char × List Char)
  | 0, _ => none
  | fuel + 1, cs =>
    match closing? quote cs with
    | some (s, rest) => some (s, rest)
    | none =>
      match newline? cs with
      | some rest => (multiline? quote escapes fuel rest).map fun (s, rest) => ('\n' :: s, rest)
      | none =>
        match cs with
        | [] => none
        | c :: rest =>
          if escapes ∧ c = '\\' then
            match newline? (skipBlank rest) with
            | some more => multiline? quote escapes fuel (skipLines more.length more)
            | none => do
              let (e, rest) ← escaped? rest
              let (s, rest) ← multiline? quote escapes fuel rest
              return (e :: s, rest)
          else if isPlain c then (multiline? quote escapes fuel rest).map fun (s, rest) => (c :: s, rest)
          else none

/-- a line end right after the opening triple quotes does not belong to the string -/
def dropFirstNewline (cs : List Char) : List Char := (newline? cs).getD cs

def string? (cs : List Char) : Option (String × List Char) :=
  let found := match cs with
    | '"' :: '"' :: '"' :: rest => multiline? '"' true (cs.length + 1) (dropFirstNewline rest)
    | '\'' :: '\'' :: '\'' :: rest => multiline? '\'' false (cs.length + 1) (dropFirstNewline rest)
    | '"' :: rest => basic? (cs.length + 1) rest
    | '\'' :: rest => literal? rest
    | _ => none
  found.map fun (s, rest) => (String.ofList s, rest)

/-! ## Keys -/

def isBare (c : Char) : Bool := c.isAlphanum || c == '_' || c == '-'

def keyPart? (cs : List Char) : Option (String × List Char) :=
  match cs with
  | '"' :: rest => (basic? (cs.length + 1) rest).map fun (s, rest) => (String.ofList s, rest)
  | '\'' :: rest => (literal? rest).map fun (s, rest) => (String.ofList s, rest)
  | _ =>
    match cs.takeWhile isBare with
    | [] => none
    | name => some (String.ofList name, cs.dropWhile isBare)

/-- the parts of a key, separated by dots, with blanks around each -/
def keyParts? : Nat → List Char → Option (List String × List Char)
  | 0, _ => none
  | fuel + 1, cs => do
    let (part, rest) ← keyPart? (skipBlank cs)
    match skipBlank rest with
    | '.' :: more =>
      let (parts, rest) ← keyParts? fuel more
      return (part :: parts, rest)
    | rest => return ([part], rest)

/-- values and dotted keys stay below this depth -/
def nestingLimit : Nat := 80

/-- a key as the path of its parts -/
def key? (cs : List Char) : Option (List String × List Char) := keyParts? (nestingLimit - 1) cs

/-! ## Numbers -/

/-- whether underscores stand only between two digits -/
def wellSpaced (run : List Char) : Bool :=
  run.head?.any (· ≠ '_') && run.getLast?.any (· ≠ '_') &&
    (run.zip run.tail).all fun p => p.1 ≠ '_' || p.2 ≠ '_'

/-- digits of a base, with single underscores between them; the underscores are left out -/
def digitRun? (isDigit : Char → Bool) (cs : List Char) : Option (List Char × List Char) :=
  let run := cs.takeWhile fun c => isDigit c || c == '_'
  if wellSpaced run then some (run.filter (· ≠ '_'), cs.drop run.length) else none

/-- an optional sign: whether it is a minus -/
def sign : List Char → Bool × List Char
  | '+' :: rest => (false, rest)
  | '-' :: rest => (true, rest)
  | cs => (false, cs)

def digits? (cs : List Char) : Option (List Char × List Char) := digitRun? Char.isDigit cs

def fraction? : List Char → Option (List Char × List Char)
  | '.' :: rest => digits? rest
  | _ => none

def exponent? : List Char → Option (Int × List Char)
  | c :: rest =>
    if c = 'e' ∨ c = 'E' then
      let (negative, rest) := sign rest
      (digits? rest).map fun (ds, rest) =>
        (if negative then -(ofDigits 10 ds : Int) else ofDigits 10 ds, rest)
    else none
  | [] => none

/-- the least number that rounds to infinity in double precision -/
def overflowBound : Nat := Nat.pow 2 1024 - Nat.pow 2 970

/-- whether `digits` times ten to the power `exponent` rounds to infinity; where the number of digits decides, no
power is computed -/
def overflows (digits : List Char) (exponent : Int) : Bool :=
  let significant := digits.dropWhile (· = '0')
  let magnitude : Int := significant.length + exponent
  if significant.isEmpty || magnitude ≤ 308 then false
  else if 310 < magnitude then true
  else
    let n := ofDigits 10 significant
    if 0 ≤ exponent then overflowBound ≤ n * Nat.pow 10 exponent.toNat
    else overflowBound * Nat.pow 10 (-exponent).toNat ≤ n

/-- a decimal: a whole number with a fraction, an exponent or both -/
def decimal? (cs : List Char) : Option (List Char) := do
  let (negative, rest) := sign cs
  let (w, rest) ← whole? digits? rest
  let (f, e, rest) ← match fraction? rest with
    | some (f, rest) =>
      match exponent? rest with
      | some (e, rest) => some (f, e, rest)
      | none => if rest.head?.any fun c => c == 'e' || c == 'E' then none else some (f, (0 : Int), rest)
    | none => (exponent? rest).map fun (e, rest) => (([] : List Char), e, rest)
  guard (negative || !overflows (w ++ f) (e - f.length))
  return rest

/-- infinity or not-a-number, with an optional sign -/
def special? (cs : List Char) : Option (List Char) :=
  let rest := (sign cs).2
  match after? "inf" rest with
  | some rest => some rest
  | none => after? "nan" rest

def inRange (n : Int) : Bool := -9223372036854775808 ≤ n && n ≤ 9223372036854775807

/-- digits of a base after its mark -/
def based? (base : Nat) (cs : List Char) : Option (Int × List Char) := do
  let (ds, rest) ← digitRun? (fun c => (hexValue? c).any (· < base)) cs
  let n : Int := ofDigits base ds
  guard (inRange n)
  return (n, rest)

def integer? (cs : List Char) : Option (Int × List Char) :=
  match cs with
  | '0' :: 'x' :: rest => based? 16 rest
  | '0' :: 'o' :: rest => based? 8 rest
  | '0' :: 'b' :: rest => based? 2 rest
  | _ => do
    let (negative, rest) := sign cs
    let (ds, rest) ← whole? digits? rest
    let n : Int := if negative then -(ofDigits 10 ds : Int) else ofDigits 10 ds
    guard (inRange n)
    return (n, rest)

/-! ## Dates and times -/

def fixed? (n : Nat) (cs : List Char) : Option (Nat × List Char) :=
  if n ≤ cs.length ∧ (cs.take n).all Char.isDigit then some (ofDigits 10 (cs.take n), cs.drop n) else none

def char? (c : Char) : List Char → Option (List Char)
  | d :: rest => if d = c then some rest else none
  | [] => none

def isLeapYear (year : Nat) : Bool := year % 4 = 0 && (year % 100 ≠ 0 || year % 400 = 0)

def daysIn (year month : Nat) : Nat :=
  if month = 2 then (if isLeapYear year then 29 else 28)
  else if month = 4 ∨ month = 6 ∨ month = 9 ∨ month = 11 then 30
  else 31

def date? (cs : List Char) : Option (List Char) := do
  let (year, cs) ← fixed? 4 cs
  let cs ← char? '-' cs
  let (month, cs) ← fixed? 2 cs
  guard (1 ≤ month && month ≤ 12)
  let cs ← char? '-' cs
  let (day, cs) ← fixed? 2 cs
  guard (1 ≤ day && day ≤ daysIn year month)
  return cs

def clock? (cs : List Char) : Option (List Char) := do
  let (hour, cs) ← fixed? 2 cs
  guard (hour ≤ 23)
  let cs ← char? ':' cs
  let (minute, cs) ← fixed? 2 cs
  guard (minute ≤ 59)
  return cs

/-- a time of day; a second may be a leap second, and a fraction of it may follow -/
def time? (cs : List Char) : Option (List Char) := do
  let cs ← clock? cs
  let cs ← char? ':' cs
  let (second, cs) ← fixed? 2 cs
  guard (second ≤ 60)
  match cs with
  | '.' :: rest => if rest.head?.any Char.isDigit then return rest.dropWhile Char.isDigit else none
  | _ => return cs

/-- a distance from universal time, if there is one -/
def offset? : List Char → Option (List Char)
  | 'Z' :: rest => some rest
  | 'z' :: rest => some rest
  | '+' :: rest => clock? rest
  | '-' :: rest => clock? rest
  | cs => some cs

/-- the time that follows a date, if there is one -/
def timeAfterDate? : List Char → Option (List Char)
  | c :: rest =>
    if c = 'T' ∨ c = 't' ∨ c = ' ' then
      match time? rest with
      | some more => offset? more
      | none => some (c :: rest)
    else some (c :: rest)
  | [] => some []

def moment? (cs : List Char) : Option (List Char) :=
  match date? cs with
  | some rest => timeAfterDate? rest
  | none => time? cs

/-! ## Values -/

/-- what was read of `cs` when `rest` remains -/
def consumed (cs rest : List Char) : String := String.ofList (cs.take (cs.length - rest.length))

/-- a value that begins with a digit or a sign -/
def numeric? (cs : List Char) : Option (Value × List Char) :=
  match moment? cs with
  | some rest => some (.moment (consumed cs rest), rest)
  | none =>
    match decimal? cs <|> special? cs with
    | some rest => some (.float (consumed cs rest), rest)
    | none => (integer? cs).map fun (n, rest) => (.integer n, rest)

/-- the items of an array after its opening bracket, and the closing bracket; a comma may follow the last item -/
def items? (item? : List Char → Option (Value × List Char)) : Nat → List Char → Option (List Value × List Char)
  | 0, _ => none
  | fuel + 1, cs => do
    let cs ← skipTrivia? cs.length cs
    match cs with
    | ']' :: rest => return ([], rest)
    | _ =>
      let (v, rest) ← item? cs
      let rest ← skipTrivia? rest.length rest
      match rest with
      | ',' :: rest =>
        let (vs, rest) ← items? item? fuel rest
        return (v :: vs, rest)
      | ']' :: rest => return ([v], rest)
      | _ => none

/-- a key, an equals sign and a value -/
def pair? (item? : List Char → Option (Value × List Char)) (cs : List Char) :
    Option (List String × Value × List Char) := do
  let (path, rest) ← key? cs
  let rest ← char? '=' rest
  let (v, rest) ← item? (skipBlank rest)
  return (path, v, rest)

/-- one or more entries of an inline table, on one line, and the closing brace -/
def inlineEntries? (item? : List Char → Option (Value × List Char)) :
    Nat → Entries → List Char → Option (Entries × List Char)
  | 0, _, _ => none
  | fuel + 1, entries, cs => do
    let (path, v, rest) ← pair? item? cs
    let entries ← entries.define? path v
    match skipBlank rest with
    | ',' :: rest => inlineEntries? item? fuel entries rest
    | '}' :: rest => return (entries, rest)
    | _ => none

/-- a value in which arrays and inline tables nest at most `depth` deep -/
def value? : Nat → List Char → Option (Value × List Char)
  | depth, cs =>
    match cs with
    | '[' :: rest =>
      match depth with
      | 0 => none
      | depth + 1 => (items? (value? depth) (cs.length + 1) rest).map fun (vs, rest) => (.array vs, rest)
    | '{' :: rest =>
      match depth with
      | 0 => none
      | depth + 1 =>
        match skipBlank rest with
        | '}' :: rest => some (.table .inline [], rest)
        | _ =>
          (inlineEntries? (value? depth) (cs.length + 1) [] rest).map fun (entries, rest) =>
            (.table .inline entries, rest)
    | 't' :: _ => (after? "true" cs).map fun rest => (.boolean true, rest)
    | 'f' :: _ => (after? "false" cs).map fun rest => (.boolean false, rest)
    | c :: _ =>
      if c = '"' ∨ c = '\'' then (string? cs).map fun (s, rest) => (.string s, rest) else numeric? cs
    | [] => none

/-! ## Documents -/

/-- the entries read so far and the header under which the next ones stand -/
structure State where
  entries : Entries
  current : List String

def header? (st : State) (cs : List Char) : Option (State × List Char) :=
  match cs with
  | '[' :: rest => do
    let (path, rest) ← key? rest
    let rest ← after? "]]" rest
    let entries ← st.entries.append? path
    return (⟨entries, path⟩, ← endLine? rest)
  | _ => do
    let (path, rest) ← key? cs
    let rest ← char? ']' rest
    let entries ← st.entries.open? path
    return (⟨entries, path⟩, ← endLine? rest)

/-- one line: empty, a comment, a header, or a key and its value, which may reach over more lines -/
def line? (st : State) (cs : List Char) : Option (State × List Char) :=
  match skipBlank cs with
  | '[' :: rest => header? st rest
  | rest =>
    match endLine? rest with
    | some more => some (st, more)
    | none => do
      let (path, v, more) ← pair? (value? (nestingLimit - 1)) rest
      let entries ← st.entries.defineIn? st.current path v
      return ({ st with entries := entries }, ← endLine? more)

def lines? : Nat → State → List Char → Option Entries
  | _, st, [] => some st.entries
  | 0, _, _ => none
  | fuel + 1, st, cs => (line? st cs).bind fun (st, rest) => lines? fuel st rest

/-- the entries of a document; a leading byte-order mark does not count -/
def parse? (text : String) : Option Entries :=
  let cs := match text.toList with
    | '\ufeff' :: rest => rest
    | cs => cs
  lines? (cs.length + 1) ⟨[], []⟩ cs

end Respell.Toml
