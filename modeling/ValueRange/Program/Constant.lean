import ValueRange.Decimal
import ValueRange.Document.Basic
import ValueRange.Fault

/-!
# Types and constants of a document

Reading the types and constants of a document. An integer constant may be written as a signed or as
an unsigned number of its width; either way it is kept as the signed number with the same bits. The
numbers are compared and brought to their width in words of 128 bits, in which widths up to 64 leave
room for the sums and differences on the way.
-/

namespace ValueRange

/-- The type that a document writes. -/
def Ty.ofExpr : Document.TypeExpr → Except Fault Ty
  | .void => .ok .void
  | .int width => if width.toNat = 0 then .error .zeroWidth else .ok (.int width.toNat)
  | .float width =>
    if width.toNat ∈ Ty.floatWidths then .ok (.float width.toNat)
    else .error (.floatWidth width.toNat)
  | .pointer => .ok .pointer
  | .label => .ok .label
  | .other name => .ok (.other name)

/-- A constant of a checked program. -/
inductive Constant where
  /-- An integer of the given width, as a signed number. -/
  | int (bits : Nat) (value : Int64)
  | float (value : String)
  | null
  | undef
  /-- Address of a function. -/
  | function (name : String)
  /-- Address of a global variable. -/
  | global (name : String)
deriving DecidableEq, Repr

namespace Constant

/-- The word with a single bit. -/
def bit (position : Nat) : BitVec 128 := 1#128 <<< position

/-- The least number of a width, the highest bit being the sign. -/
def least (bits : Nat) : BitVec 128 := -bit (bits - 1)

/-- The greatest number of a width without a sign, in which all bits are set. -/
def greatest (bits : Nat) : BitVec 128 := bit bits - 1#128

/-- The lowest bits of a word. -/
def pattern (word : BitVec 128) (bits : Nat) : BitVec 128 := word &&& greatest bits

/-- The number that a pattern of the given width stands for, the highest bit being the sign. -/
def signed (pattern : BitVec 128) (bits : Nat) : BitVec 128 :=
  if pattern &&& bit (bits - 1) ≠ 0#128 then pattern - bit bits else pattern

/-- The value of an integer literal, which has to lie within 128 bits. -/
def literal? (literal : String) : Option (BitVec 128) :=
  let value := (Decimal.integer? literal.toList).filter fun value =>
    -Int.pow 2 127 ≤ value ∧ value < Int.pow 2 127
  value.map (BitVec.ofInt 128)

/-- Read an integer literal of the given width as a signed number. -/
def readInt (literal : String) (bits : Nat) : Except Fault Int64 :=
  if 64 < bits then
    .error .wideConstant
  else
    match literal? literal with
    | none => .error (.malformedLiteral literal)
    | some word =>
      if word.slt (least bits) || (greatest bits).slt word then
        .error (.literalRange literal bits)
      else
        .ok (Int64.ofBitVec ((signed (pattern word bits) bits).setWidth 64))

/-- The constant that a document writes, at a type that has been read. -/
def ofLiteral (literal : Document.Literal) (ty : Ty) : Except Fault Constant :=
  match literal, ty with
  | .int value, .int bits => do
    let value ← readInt value bits
    pure (.int bits value)
  | .float value, .float _ => .ok (.float value)
  | .null, .pointer => .ok .null
  | .undef, _ => .ok .undef
  | .function name, .pointer => .ok (.function name)
  | .global name, .pointer => .ok (.global name)
  | _, ty => .error (.constantKind ty)

/-- Written form of a constant. -/
def text : Constant → String
  | int 1 value => if value = 0 then "false" else "true"
  | int _ value => toString value.toInt
  | float value => value
  | null => "null"
  | undef => "undef"
  | function name => "@" ++ name
  | global name => "@" ++ name

end Constant

end ValueRange
