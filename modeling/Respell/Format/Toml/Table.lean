/-
TOML tables and how a document fills them. A table is an ordered list of entries; its kind says how it came about,
since that decides what may still be added to it:

- a table that only lies on the way to another header's (`implied`) may get a header of its own once;
- a table with its own header (`opened`) gets no second one, and no dotted key reaches into it;
- a table made by dotted keys (`dotted`) is extended by dotted keys and by headers of tables below it;
- an inline table (`inline`) is a finished value.

All functions give `none` when a document may not do what it asks for.
-/
namespace Respell.Toml

/-- how a table came about -/
inductive Kind where
  | implied
  | opened
  | dotted
  | inline
deriving DecidableEq, Repr

inductive Value where
  | string (s : String)
  | integer (n : Int)
  /-- a floating-point number, as it is written -/
  | float (literal : String)
  | boolean (b : Bool)
  /-- a date, a time or both, as it is written -/
  | moment (literal : String)
  | array (items : List Value)
  | table (kind : Kind) (entries : List (String × Value))
  /-- tables under one double-bracket header, in order -/
  | tables (elements : List (List (String × Value)))
deriving Repr

abbrev Entries := List (String × Value)

namespace Entries

def replace (entries : Entries) (key : String) (v : Value) : Entries :=
  entries.map fun e => if e.1 = key then (key, v) else e

def add? (entries : Entries) (key : String) (v : Value) : Option Entries :=
  if (entries.lookup key).isSome then none else some (entries ++ [(key, v)])

/-- whether a path that makes tables of kind `making` may go through a table of kind `kind` -/
def passes (making kind : Kind) : Bool :=
  match making with
  | .dotted => kind = .implied || kind = .dotted
  | _ => kind ≠ .inline

/-- change the table at the end of a path by `f`, which is also given its kind; tables missing on the way are made,
and of an array of tables the last one is meant -/
def alter? (making : Kind) (f : Kind → Entries → Option Entries) :
    List String → Kind → Entries → Option Entries
  | [], kind, entries => f kind entries
  | key :: path, _, entries =>
    match entries.lookup key with
    | none => (alter? making f path making []).map fun sub => entries ++ [(key, .table making sub)]
    | some (.table kind sub) =>
      if passes making kind then
        (alter? making f path kind sub).map fun sub => entries.replace key (.table kind sub)
      else none
    | some (.tables elements) =>
      match elements.getLast? with
      | none => none
      | some last =>
        (alter? making f path .opened last).map fun last => entries.replace key (.tables (elements.dropLast ++ [last]))
    | some _ => none

/-- a key and its value, the key given as the path of its parts; a table reached by a longer path must be one that
dotted keys made -/
def define? (entries : Entries) (path : List String) (v : Value) : Option Entries :=
  match path.getLast? with
  | none => none
  | some key =>
    let way := path.dropLast
    alter? .dotted (fun kind sub => if way = [] ∨ kind = .dotted then sub.add? key v else none) way .opened entries

/-- a header `[path]` -/
def open? (entries : Entries) (path : List String) : Option Entries :=
  match path.getLast? with
  | none => none
  | some key =>
    alter? .implied (fun _ sub =>
      match sub.lookup key with
      | none => some (sub ++ [(key, .table .opened [])])
      | some (.table .implied inner) => some (sub.replace key (.table .opened inner))
      | some _ => none) path.dropLast .opened entries

/-- a header `[[path]]` -/
def append? (entries : Entries) (path : List String) : Option Entries :=
  match path.getLast? with
  | none => none
  | some key =>
    alter? .implied (fun _ sub =>
      match sub.lookup key with
      | none => some (sub ++ [(key, .tables [[]])])
      | some (.tables elements) => some (sub.replace key (.tables (elements ++ [[]])))
      | some _ => none) path.dropLast .opened entries

/-- a key and its value in the table whose header has path `current` -/
def defineIn? (entries : Entries) (current path : List String) (v : Value) : Option Entries :=
  alter? .implied (fun _ sub => sub.define? path v) current .opened entries

end Entries

end Respell.Toml
