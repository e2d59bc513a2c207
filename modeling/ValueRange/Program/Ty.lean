/-!
# Types of a program
-/

namespace ValueRange

/-- A type of a checked program. Integers have at least one bit and floating point numbers one of
the five common widths, which reading a type from a document ensures. -/
inductive Ty where
  | void
  | int (bits : Nat)
  | float (bits : Nat)
  | pointer
  | label
  | other (name : String)
deriving DecidableEq, Repr, Inhabited

namespace Ty

/-- The type of truth values. -/
def bool : Ty := int 1

/-- The widths of floating point types. -/
def floatWidths : List Nat := [16, 32, 64, 80, 128]

/-- Written form of a type. -/
def text : Ty → String
  | void => "void"
  | int bits => "i" ++ toString bits
  | float 16 => "half"
  | float 32 => "float"
  | float 64 => "double"
  | float 80 => "x86_fp80"
  | float bits => "fp" ++ toString bits
  | pointer => "ptr"
  | label => "label"
  | other name => name

end Ty

end ValueRange
