/-!
# Opcodes

The closed families of operators, each with its mnemonics. A mnemonic is recognised by looking it up
among those of the family, so reading and writing cannot disagree.
-/

namespace ValueRange

/-- A family of operators. -/
inductive OpcodeFamily where
  | binary
  | predicate
  | cast
deriving DecidableEq, Repr

/-- Title of a family in messages. -/
def OpcodeFamily.title : OpcodeFamily → String
  | binary => "BinaryOperator"
  | predicate => "ComparePredicate"
  | cast => "CastOperator"

/-- A binary operator. -/
inductive BinaryOp where
  | add | sub | mul | udiv | sdiv | urem | srem | shl | lshr | ashr | and | or | xor
  | fadd | fsub | fmul | fdiv | frem
deriving DecidableEq, Repr

namespace BinaryOp

/-- All binary operators. -/
def all : List BinaryOp :=
  [add, sub, mul, udiv, sdiv, urem, srem, shl, lshr, ashr, and, or, xor, fadd, fsub, fmul, fdiv,
    frem]

/-- Mnemonic of a binary operator. -/
def mnemonic : BinaryOp → String
  | add => "add"
  | sub => "sub"
  | mul => "mul"
  | udiv => "udiv"
  | sdiv => "sdiv"
  | urem => "urem"
  | srem => "srem"
  | shl => "shl"
  | lshr => "lshr"
  | ashr => "ashr"
  | and => "and"
  | or => "or"
  | xor => "xor"
  | fadd => "fadd"
  | fsub => "fsub"
  | fmul => "fmul"
  | fdiv => "fdiv"
  | frem => "frem"

/-- The binary operator with a mnemonic. -/
def ofMnemonic? (text : String) : Option BinaryOp := all.find? fun op => op.mnemonic = text

end BinaryOp

/-- A predicate of an integer comparison. -/
inductive Predicate where
  | eq | ne | ugt | uge | ult | ule | sgt | sge | slt | sle
deriving DecidableEq, Repr

namespace Predicate

/-- All predicates. -/
def all : List Predicate := [eq, ne, ugt, uge, ult, ule, sgt, sge, slt, sle]

/-- Mnemonic of a predicate. -/
def mnemonic : Predicate → String
  | eq => "eq"
  | ne => "ne"
  | ugt => "ugt"
  | uge => "uge"
  | ult => "ult"
  | ule => "ule"
  | sgt => "sgt"
  | sge => "sge"
  | slt => "slt"
  | sle => "sle"

/-- The predicate with a mnemonic. -/
def ofMnemonic? (text : String) : Option Predicate := all.find? fun op => op.mnemonic = text

/-- The signed predicate of the same order; equality tests have no sign. -/
def signed : Predicate → Predicate
  | ugt => sgt
  | uge => sge
  | ult => slt
  | ule => sle
  | predicate => predicate

end Predicate

/-- A conversion between types. -/
inductive CastOp where
  | trunc | zext | sext | fptrunc | fpext | fptoui | fptosi | uitofp | sitofp | ptrtoint | inttoptr
  | bitcast
deriving DecidableEq, Repr

namespace CastOp

/-- All conversions. -/
def all : List CastOp :=
  [trunc, zext, sext, fptrunc, fpext, fptoui, fptosi, uitofp, sitofp, ptrtoint, inttoptr, bitcast]

/-- Mnemonic of a conversion. -/
def mnemonic : CastOp → String
  | trunc => "trunc"
  | zext => "zext"
  | sext => "sext"
  | fptrunc => "fptrunc"
  | fpext => "fpext"
  | fptoui => "fptoui"
  | fptosi => "fptosi"
  | uitofp => "uitofp"
  | sitofp => "sitofp"
  | ptrtoint => "ptrtoint"
  | inttoptr => "inttoptr"
  | bitcast => "bitcast"

/-- The conversion with a mnemonic. -/
def ofMnemonic? (text : String) : Option CastOp := all.find? fun op => op.mnemonic = text

end CastOp

end ValueRange
