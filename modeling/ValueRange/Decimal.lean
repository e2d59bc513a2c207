/-!
# Decimal numbers

Reading numbers written in decimal digits. Only the ASCII digits count, and blanks, separators and an
empty text are refused.
-/

namespace ValueRange.Decimal

/-- The number that digits write; at least one is needed. -/
def natural? (digits : List Char) : Option Nat :=
  if digits ≠ [] ∧ digits.all Char.isDigit then
    some (digits.foldl (fun value digit => value * 10 + (digit.toNat - '0'.toNat)) 0)
  else
    none

/-- The number that digits write after an optional sign. -/
def integer? : List Char → Option Int
  | '-' :: digits => (natural? digits).map fun value : Nat => -(value : Int)
  | '+' :: digits => (natural? digits).map fun value : Nat => (value : Int)
  | digits => (natural? digits).map fun value : Nat => (value : Int)

/-- The number that digits write after an optional plus sign, if it is below `2 ^ 64`. -/
def count? (text : String) : Option Nat :=
  let digits := match text.toList with
    | '+' :: digits => digits
    | digits => digits
  (natural? digits).filter fun value => value < UInt64.size

end ValueRange.Decimal
