/-
Digits and words at the beginning of a text, for the readers of the formats. A reader gives what it read and the rest,
or `none` where the text does not fit.
-/
namespace Respell.Reading

/-- the value of a hexadecimal digit of either case -/
def hexValue? (c : Char) : Option Nat :=
  if '0' ≤ c ∧ c ≤ '9' then some (c.toNat - 48)
  else if 'a' ≤ c ∧ c ≤ 'f' then some (c.toNat - 87)
  else if 'A' ≤ c ∧ c ≤ 'F' then some (c.toNat - 55)
  else none

def ofDigits (base : Nat) (ds : List Char) : Nat := ds.foldl (fun n c => n * base + (hexValue? c).getD 0) 0

/-- the number that the next `n` hexadecimal digits spell -/
def hexNumber? (n : Nat) (cs : List Char) : Option (Nat × List Char) :=
  if n ≤ cs.length ∧ (cs.take n).all (fun c => (hexValue? c).isSome) then some (ofDigits 16 (cs.take n), cs.drop n)
  else none

/-- a whole number whose digits `digits?` reads: no other digit follows a leading zero -/
def whole? (digits? : List Char → Option (List Char × List Char)) : List Char → Option (List Char × List Char)
  | '0' :: rest => some (['0'], rest)
  | cs => digits? cs

/-- what follows a word that a text begins with -/
def after? (word : String) (cs : List Char) : Option (List Char) :=
  if word.toList.isPrefixOf cs then some (cs.drop word.length) else none

end Respell.Reading
