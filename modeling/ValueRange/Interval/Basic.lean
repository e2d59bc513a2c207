import ValueRange.Interval.Bound

/-!
# Intervals

Intervals over the extended integers with the operations of the range analysis. A pair of bounds is
not required to be ordered: the inverted pair `[+inf,-inf]` is the empty interval, the bottom of the
lattice, and every operation is defined on every pair.
-/

namespace ValueRange

/-- A closed interval between two bounds, which may be in any order. -/
@[ext]
structure Interval where
  /-- Lower end. -/
  lower : Bound
  /-- Upper end. -/
  upper : Bound
deriving DecidableEq, Repr, Inhabited

namespace Interval

/-- The interval of one value. -/
def constant (value : Int64) : Interval := ⟨.finite value, .finite value⟩

/-- All values. -/
def full : Interval := ⟨.negInf, .posInf⟩

/-- No value (yet). -/
def empty : Interval := ⟨.posInf, .negInf⟩

/-- The truth values of a comparison. -/
def unit : Interval := ⟨.finite 0, .finite 1⟩

/-- Least upper bound, decided by the left operand as far as it settles the result. -/
def lub (left right : Interval) : Interval :=
  if left = full then
    full
  else if left = empty then
    right
  else if left.lower = .negInf ∧ right.upper = .posInf then
    full
  else if left.lower = .negInf then
    ⟨.negInf, max left.upper right.upper⟩
  else if left.upper = .posInf then
    ⟨min left.lower right.lower, .posInf⟩
  else
    ⟨min left.lower right.lower, max left.upper right.upper⟩

/-- Negation. A pair with one finite end on the wrong side of an infinite one holds no value. -/
def neg (interval : Interval) : Interval :=
  match interval.lower, interval.upper with
  | .negInf, .posInf => full
  | .posInf, .negInf => empty
  | .negInf, .negInf => ⟨.posInf, .posInf⟩
  | .posInf, .posInf => ⟨.negInf, .negInf⟩
  | .finite lower, .posInf => ⟨.negInf, .ofInt (-lower.toInt) .posInf⟩
  | .negInf, .finite upper => ⟨.ofInt (-upper.toInt) .negInf, .posInf⟩
  | .finite lower, .finite upper =>
    let fromUpper := Bound.ofInt (-upper.toInt) .negInf
    let fromLower := Bound.ofInt (-lower.toInt) .posInf
    ⟨min fromUpper fromLower, max fromUpper fromLower⟩
  | .posInf, .finite _ => empty
  | .finite _, .negInf => empty

/-- Addition. An operand without values dominates an infinite one. -/
def add (left right : Interval) : Interval :=
  ⟨left.lower.addLower right.lower, left.upper.addUpper right.upper⟩

/-- Subtraction. -/
def sub (left right : Interval) : Interval := left.add right.neg

/-- Multiplication is not modelled: its result is not constrained. -/
def mul (_left _right : Interval) : Interval := full

/-- Division is not modelled: its result is not constrained. -/
def div (_left _right : Interval) : Interval := full

/-- Outcome of an order or equality test, which is not refined by the operands. -/
def compare (_left _right : Interval) : Interval := unit

/-- Replace every end that moved outward since `previous` by the infinity on its side. -/
def widen (current previous : Interval) : Interval :=
  if previous = empty then
    current
  else
    ⟨if current.lower < previous.lower then .negInf else current.lower,
      if previous.upper < current.upper then .posInf else current.upper⟩

/-- Written form of an interval. -/
def text (interval : Interval) : String :=
  "[" ++ interval.lower.text ++ "," ++ interval.upper.text ++ "]"

end Interval

end ValueRange
