/-
Variable-length numbers as source maps write them: the sign is the lowest bit, the rest follows in groups of five bits,
lowest first, each group a base64 digit whose sixth bit says that more follow.
-/
import Respell.Format.Base64

namespace Respell.Vlq

/-- the sign as the lowest bit -/
def signed (n : Int) : Nat := if n < 0 then 2 * n.natAbs + 1 else 2 * n.natAbs

/-- groups of five bits, lowest first -/
def groups (n : Nat) : List Char :=
  if n < 32 then [Base64.digit n] else Base64.digit (n % 32 + 32) :: groups (n / 32)
termination_by n
decreasing_by omega

def encode (n : Int) : List Char := groups (signed n)

end Respell.Vlq
