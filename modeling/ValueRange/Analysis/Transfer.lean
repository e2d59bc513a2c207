import ValueRange.Interval.Basic
import ValueRange.Program.Body
import ValueRange.Store

/-!
# Transfer function

The interval of an instruction, computed from the intervals of its operands. Arguments, constants
that are no integers and untracked instructions are not constrained.
-/

namespace ValueRange

/-- The interval of an operand. -/
def Value.interval (store : Store Interval) : Value → Interval
  | constant (.int _ value) _ => .constant value
  | constant _ _ => .full
  | argument _ _ => .full
  | register id _ => (store.get? id).getD .full

/-- The result of a binary operator on intervals. -/
def BinaryOp.apply (opcode : BinaryOp) (left right : Interval) : Except Fault Interval :=
  match opcode with
  | add => .ok (left.add right)
  | sub => .ok (left.sub right)
  | mul => .ok (left.mul right)
  | sdiv => .ok (left.div right)
  | opcode => .error (.unsupportedOperator opcode)

/-- The result of a comparison of intervals. Unsigned orders count as signed ones, and only the
strict orders are modelled. -/
def Predicate.apply (predicate : Predicate) (left right : Interval) : Except Fault Interval :=
  match predicate.signed with
  | eq => .ok (left.compare right)
  | ne => .ok (left.compare right)
  | slt => .ok (left.compare right)
  | sgt => .ok (left.compare right)
  | _ => .error (.unsupportedPredicate predicate)

namespace Instruction

/-- The intervals that a phi node joins. -/
def incomingIntervals (store : Store Interval) (incoming : List (Value × UInt64)) :
    List Interval :=
  incoming.map fun edge => edge.1.interval store

/-- The interval of an instruction. Memory is not modelled. -/
def transfer (store : Store Interval) : Instruction → Except Fault Interval
  | phi incoming => .ok ((incomingIntervals store incoming).foldl Interval.lub .empty)
  | select _ thenValue elseValue =>
    .ok ((thenValue.interval store).lub (elseValue.interval store))
  | binary opcode lhs rhs => opcode.apply (lhs.interval store) (rhs.interval store)
  | compare predicate lhs rhs => predicate.apply (lhs.interval store) (rhs.interval store)
  | alloca _ _ => .ok .full
  | load _ _ => .ok .full
  | call _ _ => .ok .full
  | cast opcode _ => .error (.untracked opcode.mnemonic)
  | .store _ _ _ => .error (.untracked "store")
  | other opcode _ => .error (.untracked opcode)

end Instruction

/-- The interval of the instruction at a position. -/
def Body.evaluate (body : Body) (id : Nat) (store : Store Interval) : Except Fault Interval := do
  let node ← body.node id
  node.instruction.transfer store

end ValueRange
