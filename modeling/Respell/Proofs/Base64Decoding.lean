/-
Base64 read back. A reader for base64 with the standard alphabet: four digits are three bytes, the last group is
filled up with `=`, and the bits that the filling covers must be zero. The reader refuses everything else.

Main results: bytes are read back from their digits (`decode?_encode`), and nothing but digits and `=` is written
(`all_isWritten`).
-/
import Respell.Format.Base64
import Respell.Proofs.MapDecoding

namespace Respell.Base64

open Vlq (digitValue? digitValue?_digit)

def decode? : List Char → Option (List UInt8)
  | [] => some []
  | a :: b :: c :: d :: rest => do
    let x ← digitValue? a
    let y ← digitValue? b
    let first := UInt8.ofNat (x * 4 + y / 16)
    if d = '=' then
      guard (rest = [])
      if c = '=' then
        guard (y % 16 = 0)
        return [first]
      else
        let z ← digitValue? c
        guard (z % 4 = 0)
        return [first, UInt8.ofNat (y % 16 * 16 + z / 4)]
    else
      let z ← digitValue? c
      let w ← digitValue? d
      let bytes ← decode? rest
      return first :: UInt8.ofNat (y % 16 * 16 + z / 4) :: UInt8.ofNat (z % 4 * 64 + w) :: bytes
  | _ => none

/-- the characters that are written in base64 -/
def isWritten (c : Char) : Bool := c.isAlphanum || c == '+' || c == '/' || c == '='

theorem digit_facts : ∀ n < 64, digit n ≠ '=' ∧ isWritten (digit n) = true := by decide +kernel

theorem ofNat_eq {n : Nat} {a : UInt8} (h : n = a.toNat) : UInt8.ofNat n = a := by rw [h, UInt8.ofNat_toNat]

/-- **Bytes are read back** from their digits. -/
theorem decode?_encode (bytes : List UInt8) : decode? (encode bytes) = some bytes := by
  fun_induction encode bytes with
  | case1 => rfl
  | case2 a n =>
    have ha := a.toNat_lt
    have hfirst : UInt8.ofNat (n / 64 * 4 + n % 64 / 16) = a := ofNat_eq (by omega)
    have hzero : n % 64 % 16 = 0 := by omega
    simp only [decode?, digitValue?_digit (n / 64) (by omega), digitValue?_digit (n % 64) (by omega),
      Option.bind_eq_bind, Option.bind_some, guard, if_true, hzero, hfirst, Option.pure_def]
  | case3 a b n =>
    have ha := a.toNat_lt
    have hb := b.toNat_lt
    have hfirst : UInt8.ofNat (n / 4096 * 4 + n / 64 % 64 / 16) = a := ofNat_eq (by omega)
    have hsecond : UInt8.ofNat (n / 64 % 64 % 16 * 16 + n % 64 / 4) = b := ofNat_eq (by omega)
    have hzero : n % 64 % 4 = 0 := by omega
    simp only [decode?, digitValue?_digit (n / 4096) (by omega), digitValue?_digit (n / 64 % 64) (by omega),
      digitValue?_digit (n % 64) (by omega), (digit_facts (n % 64) (by omega)).1, Option.bind_eq_bind,
      Option.bind_some, guard, if_true, if_false, hzero, hfirst, hsecond, Option.pure_def]
  | case4 a b c rest n ih =>
    have ha := a.toNat_lt
    have hb := b.toNat_lt
    have hc := c.toNat_lt
    have hfirst : UInt8.ofNat (n / 262144 * 4 + n / 4096 % 64 / 16) = a := ofNat_eq (by omega)
    have hsecond : UInt8.ofNat (n / 4096 % 64 % 16 * 16 + n / 64 % 64 / 4) = b := ofNat_eq (by omega)
    have hthird : UInt8.ofNat (n / 64 % 64 % 4 * 64 + n % 64) = c := ofNat_eq (by omega)
    simp only [decode?, digitValue?_digit (n / 262144) (by omega), digitValue?_digit (n / 4096 % 64) (by omega),
      digitValue?_digit (n / 64 % 64) (by omega), digitValue?_digit (n % 64) (by omega),
      (digit_facts (n % 64) (by omega)).1, Option.bind_eq_bind, Option.bind_some, if_false, ih, hfirst, hsecond, hthird,
      Option.pure_def]

theorem all_isWritten (bytes : List UInt8) : (encode bytes).all isWritten = true := by
  have hdigit : ∀ n < 64, isWritten (digit n) = true := fun n hn => (digit_facts n hn).2
  fun_induction encode bytes with
  | case1 => rfl
  | case2 a n =>
    have ha := a.toNat_lt
    simp only [List.all_cons, hdigit (n / 64) (by omega), hdigit (n % 64) (by omega)]
    rfl
  | case3 a b n =>
    have ha := a.toNat_lt
    have hb := b.toNat_lt
    simp only [List.all_cons, hdigit (n / 4096) (by omega), hdigit (n / 64 % 64) (by omega),
      hdigit (n % 64) (by omega)]
    rfl
  | case4 a b c rest n ih =>
    have ha := a.toNat_lt
    have hb := b.toNat_lt
    have hc := c.toNat_lt
    simp only [List.all_cons, hdigit (n / 262144) (by omega), hdigit (n / 4096 % 64) (by omega),
      hdigit (n / 64 % 64) (by omega), hdigit (n % 64) (by omega), ih, Bool.and_self]

end Respell.Base64
