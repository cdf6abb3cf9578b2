import Mathlib.Algebra.Group.Nat.Defs

/-!
# Decimal numbers

The decimal spellings of machine integers: a sign and digits, within the range of some bits.
-/

namespace Decimal

/-- A number of decimal digits. -/
def parseDigits (s : List Char) : Option ℕ :=
  if s ≠ [] ∧ s.all Char.isDigit then
    some (s.foldl (fun n c => n * 10 + (c.toNat - '0'.toNat)) 0)
  else none

/-- A signed decimal number of some bits. -/
def parseInt (bits : ℕ) (s : String) : Option ℤ :=
  match s.toList with
  | '-' :: cs => (parseDigits cs).bind fun n => if n ≤ 2 ^ (bits - 1) then some (-n) else none
  | '+' :: cs => (parseDigits cs).bind fun n => if n < 2 ^ (bits - 1) then some n else none
  | cs => (parseDigits cs).bind fun n => if n < 2 ^ (bits - 1) then some n else none

/-- An unsigned decimal number of some bits. -/
def parseUint (bits : ℕ) (s : String) : Option ℤ :=
  (parseDigits s.toList).bind fun n => if n < 2 ^ bits then some n else none

end Decimal
