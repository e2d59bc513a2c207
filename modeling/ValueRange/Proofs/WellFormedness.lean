import ValueRange.Program.Validation
import ValueRange.Proofs.TwosComplement
import ValueRange.Proofs.Outcome

/-!
# Well-formed documents

What is required of a document, said about the document alone: types are compared as they are
written, and nothing is converted. The requirements on a function come in two parts. Its
declarations are the types, labels and indices that it introduces. Its instructions then may use
what is declared, and every kind of instruction has a rule of its own.
-/

namespace ValueRange.Document

/-- The width of a type is a possible one. -/
def TypeExpr.Valid : TypeExpr → Prop
  | int width => 1 ≤ width.toNat
  | float width => width.toNat ∈ [16, 32, 64, 80, 128]
  | void | pointer | label | other _ => True

/-- A constant may be written like this at a type. -/
def Literal.Fits : Literal → TypeExpr → Prop
  | int text, .int width =>
    width.toNat ≤ 64 ∧
      ∃ value, Decimal.Numeral text.toList value ∧ Constant.Holds width.toNat value
  | float _, .float _ => True
  | null, .pointer => True
  | undef, _ => True
  | function _, .pointer => True
  | global _, .pointer => True
  | _, _ => False

/-- Type of an operand as written. -/
def Operand.ty : Operand → TypeExpr
  | argument ty _ => ty
  | constant value => value.ty
  | instruction ty _ => ty

namespace Function

/-- The instructions of all blocks but the terminators. -/
def instructions (function : Function) : List Instruction := function.blocks.flatMap Block.body

/-- The terminators of all blocks. -/
def terminators (function : Function) : List Instruction := function.blocks.map Block.terminator

/-- The labels of all blocks. -/
def labels (function : Function) : List UInt64 := function.blocks.map Block.label

/-- An operand refers to something that exists, with the type that it has. -/
def Resolves (function : Function) : Operand → Prop
  | .constant constant => constant.ty.Valid ∧ constant.repr.Fits constant.ty
  | .argument ty index =>
    ∃ parameter, function.params[index.toNat]? = some parameter ∧ parameter.ty = ty
  | .instruction ty index =>
    ∃ instruction ∈ function.instructions, instruction.index = index ∧ instruction.ty = ty

/-- An operand can be used where a type is expected. -/
def Accepts (function : Function) (ty : TypeExpr) (operand : Operand) : Prop :=
  function.Resolves operand ∧ operand.ty = ty

/-- An operation may stand before the end of a block and have a result of this type. -/
def Permits (function : Function) (ty : TypeExpr) : Operation → Prop
  | .phi incoming =>
    incoming ≠ [] ∧
      ∀ edge ∈ incoming, function.Accepts ty edge.value ∧ edge.block ∈ function.labels
  | .select cond thenValue elseValue =>
    function.Accepts (.int 1) cond ∧ function.Accepts ty thenValue ∧
      function.Accepts ty elseValue
  | .binary mnemonic lhs rhs =>
    (∃ opcode : BinaryOp, opcode.mnemonic = mnemonic) ∧ function.Accepts ty lhs ∧
      function.Accepts ty rhs
  | .compare mnemonic lhs rhs =>
    ty = .int 1 ∧ (∃ predicate : Predicate, predicate.mnemonic = mnemonic) ∧
      function.Resolves lhs ∧ function.Accepts lhs.ty rhs
  | .cast mnemonic operand =>
    (∃ opcode : CastOp, opcode.mnemonic = mnemonic) ∧ function.Resolves operand
  | .alloca allocatedType size =>
    ty = .pointer ∧ allocatedType.Valid ∧ ∀ operand ∈ size, function.Resolves operand
  | .load pointeeType pointer => pointeeType = ty ∧ function.Accepts .pointer pointer
  | .store pointeeType pointer value =>
    ty = .void ∧ pointeeType.Valid ∧ function.Accepts .pointer pointer ∧
      function.Accepts pointeeType value
  | .call callee args =>
    function.Accepts .pointer callee ∧ ∀ operand ∈ args, function.Resolves operand
  | .other _ operands => ∀ operand ∈ operands, function.Resolves operand
  | .goto _ | .branch _ _ _ | .ret _ | .unreachable => False

/-- An operation may end a block. -/
def PermitsLast (function : Function) : Operation → Prop
  | .goto target => target ∈ function.labels
  | .branch cond thenCase elseCase =>
    function.Accepts (.int 1) cond ∧ thenCase ∈ function.labels ∧ elseCase ∈ function.labels
  | .ret none => function.ret = .void
  | .ret (some value) => function.ret ≠ .void ∧ function.Accepts function.ret value
  | .unreachable => True
  | _ => False

/-- What a function introduces is sound: types are valid, and labels and indices are unique. -/
structure Declared (function : Function) : Prop where
  /-- Types of parameters are valid. -/
  params_valid : ∀ parameter ∈ function.params, parameter.ty.Valid
  /-- The type of the result is valid. -/
  ret_valid : function.ret.Valid
  /-- No label is used twice. -/
  labels_nodup : function.labels.Nodup
  /-- Types of instructions are valid. -/
  types_valid : ∀ instruction ∈ function.instructions, instruction.ty.Valid
  /-- No index is used twice, also not by a terminator. -/
  indices_nodup : ((function.instructions ++ function.terminators).map Instruction.index).Nodup

/-- A function that can be checked. A declaration has no blocks and so no further obligations. -/
structure WellFormed (function : Function) : Prop extends function.Declared where
  /-- Every instruction before the end of a block follows the rule of its kind. -/
  permits : ∀ instruction ∈ function.instructions, function.Permits instruction.ty instruction.repr
  /-- Every block ends in a terminator without a result. -/
  permitsLast : ∀ instruction ∈ function.terminators,
    instruction.ty = .void ∧ function.PermitsLast instruction.repr

end Function

/-- A module that can be checked. -/
structure Module.WellFormed (module : Module) : Prop where
  /-- No name is used twice. -/
  names_nodup : (module.functions.map Function.name).Nodup
  /-- Every function can be checked. -/
  functions : ∀ function ∈ module.functions, function.WellFormed

/-! ## Meaning of types -/

namespace TypeExpr

/-- The type that is meant, if the width is a possible one. -/
def denoted : TypeExpr → Ty
  | void => .void
  | int width => .int width.toNat
  | float width => .float width.toNat
  | pointer => .pointer
  | label => .label
  | other name => .other name

/-- Types that are written differently differ. -/
theorem denoted_inj {left right : TypeExpr} : left.denoted = right.denoted ↔ left = right := by
  constructor
  · intro heq
    cases left <;> cases right <;> simp_all [denoted, UInt64.toNat_inj]
  · rintro rfl
    rfl

theorem denoted_eq_bool_iff {expr : TypeExpr} : expr.denoted = .bool ↔ expr = .int 1 :=
  @denoted_inj expr (.int 1)

theorem denoted_eq_void_iff {expr : TypeExpr} : expr.denoted = .void ↔ expr = .void :=
  @denoted_inj expr .void

theorem denoted_eq_pointer_iff {expr : TypeExpr} : expr.denoted = .pointer ↔ expr = .pointer :=
  @denoted_inj expr .pointer

end TypeExpr

end ValueRange.Document

namespace ValueRange

open Document

/-- Reading a type succeeds on the valid ones. -/
theorem Ty.ofExpr_eq_ok_iff {expr : TypeExpr} {ty : Ty} :
    Ty.ofExpr expr = .ok ty ↔ expr.Valid ∧ ty = expr.denoted := by
  cases expr with
  | int width =>
      by_cases hwidth : width.toNat = 0
      · simp [Ty.ofExpr, TypeExpr.Valid, hwidth]
      · simp [Ty.ofExpr, TypeExpr.Valid, TypeExpr.denoted, hwidth, Nat.one_le_iff_ne_zero, eq_comm]
  | float width =>
      by_cases hwidth : width.toNat ∈ Ty.floatWidths
      · have hvalid : (TypeExpr.float width).Valid := hwidth
        simp [Ty.ofExpr, TypeExpr.denoted, hwidth, hvalid, eq_comm]
      · have hvalid : ¬ (TypeExpr.float width).Valid := hwidth
        simp [Ty.ofExpr, hwidth, hvalid]
  | _ => simp [Ty.ofExpr, TypeExpr.Valid, TypeExpr.denoted, eq_comm]

/-- A reference is taken if it is written with the declared type. -/
theorem Ty.annotated_eq_ok_iff {declared expr : TypeExpr} (hdeclared : declared.Valid) {α : Type}
    {refer : Ty → α} {fault : Fault} {result : α} :
    (do
        let ty ← Ty.ofExpr expr
        if declared.denoted = ty then pure (refer ty) else throw fault) = .ok result ↔
      expr = declared ∧ result = refer declared.denoted := by
  rw [Outcome.bind_eq_ok_iff]
  constructor
  · rintro ⟨ty, hty, hresult⟩
    obtain ⟨_, rfl⟩ := Ty.ofExpr_eq_ok_iff.mp hty
    split at hresult
    · rename_i hsame
      cases TypeExpr.denoted_inj.mp hsame
      exact ⟨rfl, (Outcome.pure_eq_ok_iff.mp hresult).symm⟩
    · exact absurd hresult Outcome.throw_ne_ok
  · rintro ⟨rfl, rfl⟩
    refine ⟨expr.denoted, Ty.ofExpr_eq_ok_iff.mpr ⟨hdeclared, rfl⟩, ?_⟩
    rw [if_pos rfl]
    rfl

/-- A literal can be read at a type if it fits. -/
theorem Constant.exists_ofLiteral_iff {literal : Literal} {expr : TypeExpr} :
    (∃ constant, Constant.ofLiteral literal expr.denoted = .ok constant) ↔ literal.Fits expr := by
  cases literal with
  | int text =>
      cases expr with
      | int width =>
          have hread := @Constant.exists_readInt_iff text width.toNat
          simp only [Constant.ofLiteral, TypeExpr.denoted, Literal.Fits,
            Outcome.exists_bind_eq_ok_iff, Outcome.pure_eq_ok_iff, exists_eq', and_true, hread]
      | _ => simp [Constant.ofLiteral, TypeExpr.denoted, Literal.Fits]
  | _ => cases expr <;> simp [Constant.ofLiteral, TypeExpr.denoted, Literal.Fits]

end ValueRange
