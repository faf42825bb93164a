/-
JSON values, their compact text, and a strict reader for records.

`Json.render` writes no whitespace; of a string it escapes the quote, the backslash and the characters below U+0020, and
nothing else. A number is kept as it is written.

`Json.record?` reads a text that must hold one record with the given field names: an object, whose other members are
passed over, or an array of the first fields' values in their order. A field given twice is refused. An escape that
names half of a surrogate pair makes a string no text, and is refused wherever the string is wanted; in a member that
is passed over it may stand.
-/
import Respell.Format.Digits

namespace Respell

inductive Json where
  | null
  | bool (b : Bool)
  | number (literal : String)
  | string (s : String)
  | array (items : List Json)
  | object (members : List (String × Json))
deriving Repr

namespace Json

/-! ## Writing -/

/-- the hexadecimal digit for a number below 16, in lower case -/
def hexDigit (n : Nat) : Char := if n < 10 then Char.ofNat (48 + n) else Char.ofNat (87 + n)

/-- a character as it stands in a string -/
def escape (c : Char) : List Char :=
  if c = '"' then ['\\', '"']
  else if c = '\\' then ['\\', '\\']
  else if c = '\x08' then ['\\', 'b']
  else if c = '\x0c' then ['\\', 'f']
  else if c = '\n' then ['\\', 'n']
  else if c = '\r' then ['\\', 'r']
  else if c = '\t' then ['\\', 't']
  else if c.toNat < 32 then ['\\', 'u', '0', '0', hexDigit (c.toNat / 16), hexDigit (c.toNat % 16)]
  else [c]

def quote (s : String) : List Char := '"' :: s.toList.flatMap escape ++ ['"']

mutual

/-- the compact text of a value -/
def chars : Json → List Char
  | .null => "null".toList
  | .bool b => (if b then "true" else "false").toList
  | .number literal => literal.toList
  | .string s => quote s
  | .array items => '[' :: itemChars items ++ [']']
  | .object members => '{' :: memberChars members ++ ['}']

def itemChars : List Json → List Char
  | [] => []
  | [v] => chars v
  | v :: w :: rest => chars v ++ ',' :: itemChars (w :: rest)

def memberChars : List (String × Json) → List Char
  | [] => []
  | [(k, v)] => quote k ++ ':' :: chars v
  | (k, v) :: m :: rest => quote k ++ ':' :: chars v ++ ',' :: memberChars (m :: rest)

end

def render (v : Json) : String := String.ofList (chars v)

/-! ## Reading -/

open Reading

def isSpace (c : Char) : Bool := c == ' ' || c == '\n' || c == '\t' || c == '\r'

def skipSpace (cs : List Char) : List Char := cs.dropWhile isSpace

/-- the first unit of a surrogate pair -/
def isHigh (n : Nat) : Bool := 0xD800 ≤ n && n < 0xDC00

/-- the second unit of a surrogate pair -/
def isLow (n : Nat) : Bool := 0xDC00 ≤ n && n < 0xE000

/-- the second unit of a surrogate pair, as an escape -/
def low? : List Char → Option (Nat × List Char)
  | '\\' :: 'u' :: rest => do
    let (n, rest) ← hexNumber? 4 rest
    guard (isLow n)
    return (n, rest)
  | _ => none

/-- the character of an escape whose `\u` has been read; half a pair is refused, or stands for U+FFFD if `loose` -/
def unicode? (loose : Bool) (cs : List Char) : Option (Char × List Char) := do
  let (n, rest) ← hexNumber? 4 cs
  if isHigh n then
    match low? rest with
    | some (m, rest) => return (Char.ofNat (0x10000 + (n - 0xD800) * 0x400 + (m - 0xDC00)), rest)
    | none =>
      guard loose
      return (Char.ofNat 0xFFFD, rest)
  else if isLow n then
    guard loose
    return (Char.ofNat 0xFFFD, rest)
  else return (Char.ofNat n, rest)

/-- the character of an escape whose backslash has been read -/
def escaped? (loose : Bool) : List Char → Option (Char × List Char)
  | '"' :: rest => some ('"', rest)
  | '\\' :: rest => some ('\\', rest)
  | '/' :: rest => some ('/', rest)
  | 'b' :: rest => some ('\x08', rest)
  | 'f' :: rest => some ('\x0c', rest)
  | 'n' :: rest => some ('\n', rest)
  | 'r' :: rest => some ('\r', rest)
  | 't' :: rest => some ('\t', rest)
  | 'u' :: rest => unicode? loose rest
  | _ => none

/-- the characters of a string whose opening quote has been read, in at most `fuel` steps -/
def stringChars? (loose : Bool) : Nat → List Char → Option (List Char × List Char)
  | 0, _ => none
  | _ + 1, [] => none
  | _ + 1, '"' :: rest => some ([], rest)
  | fuel + 1, '\\' :: rest => do
    let (c, rest) ← escaped? loose rest
    let (s, rest) ← stringChars? loose fuel rest
    return (c :: s, rest)
  | fuel + 1, c :: rest =>
    if c.toNat < 32 then none
    else do
      let (s, rest) ← stringChars? loose fuel rest
      return (c :: s, rest)

/-- a string whose opening quote has been read -/
def string? (loose : Bool) (cs : List Char) : Option (String × List Char) :=
  (stringChars? loose (cs.length + 1) cs).map fun (s, rest) => (String.ofList s, rest)

def digits? (cs : List Char) : Option (List Char × List Char) :=
  match cs.takeWhile Char.isDigit with
  | [] => none
  | ds => some (ds, cs.dropWhile Char.isDigit)

/-- a point and digits, if there is a point -/
def fraction? : List Char → Option (List Char × List Char)
  | '.' :: rest => (digits? rest).map fun (ds, rest) => ('.' :: ds, rest)
  | cs => some ([], cs)

def exponent? : List Char → Option (List Char × List Char)
  | c :: rest =>
    if c = 'e' ∨ c = 'E' then
      match rest with
      | '+' :: more => (digits? more).map fun (ds, rest) => (c :: '+' :: ds, rest)
      | '-' :: more => (digits? more).map fun (ds, rest) => (c :: '-' :: ds, rest)
      | _ => (digits? rest).map fun (ds, rest) => (c :: ds, rest)
    else some ([], c :: rest)
  | [] => some ([], [])

/-- a number, as it is written -/
def number? (cs : List Char) : Option (String × List Char) := do
  let (sign, cs) := match cs with
    | '-' :: rest => (['-'], rest)
    | cs => ([], cs)
  let (w, cs) ← whole? digits? cs
  let (f, cs) ← fraction? cs
  let (e, cs) ← exponent? cs
  return (String.ofList (sign ++ w ++ f ++ e), cs)

mutual

/-- a value at the beginning of a text, in at most `fuel` steps -/
def value? (loose : Bool) : Nat → List Char → Option (Json × List Char)
  | 0, _ => none
  | fuel + 1, cs =>
    match skipSpace cs with
    | '"' :: rest => (string? loose rest).map fun (s, rest) => (.string s, rest)
    | '[' :: rest =>
      match skipSpace rest with
      | ']' :: rest => some (.array [], rest)
      | _ => (items? loose fuel rest).map fun (vs, rest) => (.array vs, rest)
    | '{' :: rest =>
      match skipSpace rest with
      | '}' :: rest => some (.object [], rest)
      | _ => (members? loose (fun _ => loose) fuel rest).map fun (ms, rest) => (.object ms, rest)
    | 'n' :: rest => (after? "ull" rest).map fun rest => (.null, rest)
    | 't' :: rest => (after? "rue" rest).map fun rest => (.bool true, rest)
    | 'f' :: rest => (after? "alse" rest).map fun rest => (.bool false, rest)
    | cs => (number? cs).map fun (n, rest) => (.number n, rest)

/-- one or more items and the closing bracket -/
def items? (loose : Bool) : Nat → List Char → Option (List Json × List Char)
  | 0, _ => none
  | fuel + 1, cs => do
    let (v, rest) ← value? loose fuel cs
    match skipSpace rest with
    | ',' :: rest =>
      let (vs, rest) ← items? loose fuel rest
      return (v :: vs, rest)
    | ']' :: rest => return ([v], rest)
    | _ => none

/-- one or more members and the closing brace; the value of member `k` is read loosely if `looseAt k` -/
def members? (loose : Bool) (looseAt : String → Bool) :
    Nat → List Char → Option (List (String × Json) × List Char)
  | 0, _ => none
  | fuel + 1, cs =>
    match skipSpace cs with
    | '"' :: rest => do
      let (k, rest) ← string? loose rest
      match skipSpace rest with
      | ':' :: rest =>
        let (v, rest) ← value? (looseAt k) fuel rest
        match skipSpace rest with
        | ',' :: rest =>
          let (ms, rest) ← members? loose looseAt fuel rest
          return ((k, v) :: ms, rest)
        | '}' :: rest => return ([(k, v)], rest)
        | _ => none
      | _ => none
    | _ => none

end

/-- steps enough for a text: no two in a row consume nothing -/
def fuelFor (cs : List Char) : Nat := 2 * cs.length + 2

def noneTwice : List (String × Json) → Bool
  | [] => true
  | (k, _) :: rest => !(rest.any fun m => m.1 == k) && noneTwice rest

/-- the members of an object whose opening brace has been read, those that are no field left out -/
def objectFields? (fields : List String) (cs : List Char) : Option (List (String × Json) × List Char) :=
  match skipSpace cs with
  | '}' :: rest => some ([], rest)
  | _ => do
    let (ms, rest) ← members? false (fun k => !fields.contains k) (fuelFor cs) cs
    let own := ms.filter fun m => fields.contains m.1
    guard (noneTwice own)
    return (own, rest)

/-- the items of an array whose opening bracket has been read, as the first fields -/
def arrayFields? (fields : List String) (cs : List Char) : Option (List (String × Json) × List Char) :=
  match skipSpace cs with
  | ']' :: rest => some ([], rest)
  | _ => do
    let (vs, rest) ← items? false (fuelFor cs) cs
    guard (vs.length ≤ fields.length)
    return (fields.zip vs, rest)

/-- the fields that a text gives a record; a field may be missing -/
def record? (fields : List String) (text : String) : Option (List (String × Json)) := do
  let (found, rest) ← match skipSpace text.toList with
    | '{' :: rest => objectFields? fields rest
    | '[' :: rest => arrayFields? fields rest
    | _ => none
  guard (skipSpace rest).isEmpty
  return found

/-! ## Fields of a record -/

def asString? : Json → Option String
  | .string s => some s
  | _ => none

def asBool? : Json → Option Bool
  | .bool b => some b
  | _ => none

/-- a number below `bound` that is written with digits alone -/
def asNatBelow? (bound : Nat) : Json → Option Nat
  | .number literal =>
    if literal.toList.all Char.isDigit then
      let n := ofDigits 10 literal.toList
      if n < bound then some n else none
    else none
  | _ => none

/-- `null`, or what `f` reads -/
def orNull? {α : Type} (f : Json → Option α) : Json → Option (Option α)
  | .null => some none
  | v => (f v).map some

def asList? {α : Type} (f : Json → Option α) : Json → Option (List α)
  | .array items => items.mapM f
  | _ => none

def required? {α : Type} (record : List (String × Json)) (name : String) (f : Json → Option α) : Option α :=
  (record.lookup name).bind f

/-- a field with a value to take when it is not given -/
def optional? {α : Type} (record : List (String × Json)) (name : String) (missing : α) (f : Json → Option α) :
    Option α :=
  match record.lookup name with
  | none => some missing
  | some v => f v

end Json

end Respell
