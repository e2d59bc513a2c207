/-!
# Interval bounds

A bound is a signed 64-bit integer or one of two points beyond all of them. Arithmetic on finite
bounds is carried out in `Int`; a result that no 64-bit integer holds becomes the infinity that the
caller names, so each use decides for itself on which side an overflow is safe.
-/

namespace ValueRange

/-- One end of an interval. -/
inductive Bound where
  /-- Below every integer. -/
  | negInf
  /-- A signed 64-bit integer. -/
  | finite (value : Int64)
  /-- Above every integer. -/
  | posInf
deriving DecidableEq, Repr, Inhabited

namespace Bound

/-- The order `-inf < finite values < +inf`. -/
protected def le : Bound → Bound → Bool
  | negInf, _ => true
  | _, posInf => true
  | finite left, finite right => left ≤ right
  | _, _ => false

instance : LE Bound := ⟨fun left right => left.le right = true⟩

instance : LT Bound := ⟨fun left right => ¬ right ≤ left⟩

instance (left right : Bound) : Decidable (left ≤ right) :=
  inferInstanceAs (Decidable (left.le right = true))

instance (left right : Bound) : Decidable (left < right) :=
  inferInstanceAs (Decidable (¬ right ≤ left))

instance : Min Bound := minOfLe

instance : Max Bound := maxOfLe

instance : Ord Bound where
  compare left right := compareOfLessAndEq left right

/-- The bound at an integer, or `beyond` if no signed 64-bit integer has that value. -/
def ofInt (value : Int) (beyond : Bound) : Bound :=
  if Int64.minValue.toInt ≤ value ∧ value ≤ Int64.maxValue.toInt then
    finite (Int64.ofInt value)
  else
    beyond

/-- Sum of two lower bounds. An end at `+inf` belongs to an interval without values and stays;
an overflow gives up the bound. -/
def addLower : Bound → Bound → Bound
  | posInf, _ => posInf
  | _, posInf => posInf
  | negInf, _ => negInf
  | _, negInf => negInf
  | finite left, finite right => ofInt (left.toInt + right.toInt) negInf

/-- Sum of two upper bounds. An end at `-inf` belongs to an interval without values and stays;
an overflow gives up the bound. -/
def addUpper : Bound → Bound → Bound
  | negInf, _ => negInf
  | _, negInf => negInf
  | posInf, _ => posInf
  | _, posInf => posInf
  | finite left, finite right => ofInt (left.toInt + right.toInt) posInf

/-- Written form of a bound. -/
def text : Bound → String
  | negInf => "-inf"
  | finite value => toString value.toInt
  | posInf => "+inf"

end Bound

end ValueRange
