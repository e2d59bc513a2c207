import ValueRange.Document.Decode
import ValueRange.Loading
import ValueRange.Proofs.Decoding

/-!
# Decoding undoes encoding

Writing a module document and reading it again gives the document back. The writer uses one of the
many forms that the reader takes: objects with all fields in the declared order, `null` for what is
absent, and the bare name for a variant without content. So a document that was read from any text
can be written in this form, and it is read and checked with the same outcome.
-/

namespace ValueRange.Document

open Json Json.Decoder

theorem TypeExpr.reads (ty : TypeExpr) : TypeExpr.decoder.Reads ty.tokens ty := by
  cases ty with
  | void => exact reads_unit rfl rfl
  | int width => exact reads_variant rfl (reads_record1 (reads_natural width))
  | float width => exact reads_variant rfl (reads_record1 (reads_natural width))
  | pointer => exact reads_unit rfl rfl
  | label => exact reads_unit rfl rfl
  | other name => exact reads_variant rfl (reads_record1 (reads_text name))

theorem Literal.reads (literal : Literal) : Literal.decoder.Reads literal.tokens literal := by
  cases literal with
  | int value => exact reads_variant rfl (reads_record1 (reads_text value))
  | float value => exact reads_variant rfl (reads_record1 (reads_text value))
  | null => exact reads_unit rfl rfl
  | undef => exact reads_unit rfl rfl
  | function name => exact reads_variant rfl (reads_record1 (reads_text name))
  | global name => exact reads_variant rfl (reads_record1 (reads_text name))

theorem Constant.reads (constant : Constant) :
    Constant.decoder.Reads constant.tokens constant :=
  reads_record2 constant.ty.reads constant.repr.reads (by decide)

theorem Operand.reads (operand : Operand) : Operand.decoder.Reads operand.tokens operand := by
  cases operand with
  | argument ty index =>
      exact reads_variant rfl (reads_record2 ty.reads (reads_natural index) (by decide))
  | constant value => exact reads_variant rfl (value.reads.map _)
  | instruction ty index =>
      exact reads_variant rfl (reads_record2 ty.reads (reads_natural index) (by decide))

/-- An operand is an object, so it can be told from `null`. -/
theorem Operand.reads_nullable (operand? : Option Operand) :
    (nullable Operand.decoder).Reads (Token.ofOption Operand.tokens operand?) operand? := by
  refine Decoder.reads_nullable (fun operand _ => operand.reads) fun operand _ => ?_
  cases operand <;> nofun

theorem reads_nullable_text (name? : Option String) :
    (nullable text).Reads (Token.ofOption Token.ofText name?) name? :=
  Decoder.reads_nullable (fun name _ => reads_text name) fun _ _ => nofun

theorem Operand.reads_list (operands : List Operand) :
    (list Operand.decoder).Reads (Token.ofList Operand.tokens operands) operands :=
  Decoder.reads_list fun operand _ => operand.reads

theorem Incoming.reads (incoming : Incoming) : Incoming.decoder.Reads incoming.tokens incoming :=
  reads_record2 incoming.value.reads (reads_natural incoming.block) (by decide)

theorem Operation.reads (operation : Operation) :
    Operation.decoder.Reads operation.tokens operation := by
  cases operation with
  | phi incoming =>
      exact reads_variant rfl (reads_record1 (reads_list fun edge _ => edge.reads))
  | select cond thenValue elseValue =>
      exact reads_variant rfl
        (reads_record3 cond.reads thenValue.reads elseValue.reads (by decide))
  | binary opcode lhs rhs =>
      exact reads_variant rfl (reads_record3 (reads_text opcode) lhs.reads rhs.reads (by decide))
  | compare predicate lhs rhs =>
      exact reads_variant rfl
        (reads_record3 (reads_text predicate) lhs.reads rhs.reads (by decide))
  | cast opcode operand =>
      exact reads_variant rfl (reads_record2 (reads_text opcode) operand.reads (by decide))
  | alloca allocatedType size =>
      exact reads_variant rfl
        (reads_record2 allocatedType.reads (Operand.reads_nullable size) (by decide))
  | load pointeeType pointer =>
      exact reads_variant rfl (reads_record2 pointeeType.reads pointer.reads (by decide))
  | store pointeeType pointer value =>
      exact reads_variant rfl
        (reads_record3 pointeeType.reads pointer.reads value.reads (by decide))
  | call callee args =>
      exact reads_variant rfl
        (reads_record2 callee.reads (Operand.reads_list args) (by decide))
  | other opcode operands =>
      exact reads_variant rfl
        (reads_record2 (reads_text opcode) (Operand.reads_list operands) (by decide))
  | goto target => exact reads_variant rfl (reads_record1 (reads_natural target))
  | branch cond thenCase elseCase =>
      exact reads_variant rfl
        (reads_record3 cond.reads (reads_natural thenCase) (reads_natural elseCase) (by decide))
  | ret value => exact reads_variant rfl (reads_record1 (Operand.reads_nullable value))
  | unreachable => exact reads_unit rfl rfl

theorem Instruction.reads (instruction : Instruction) :
    Instruction.decoder.Reads instruction.tokens instruction :=
  reads_record4 instruction.ty.reads (reads_natural instruction.index)
    (reads_nullable_text instruction.name) instruction.repr.reads (by decide)

theorem Block.reads (block : Block) : Block.decoder.Reads block.tokens block :=
  reads_record4 (reads_natural block.label) (reads_nullable_text block.name)
    (reads_list fun instruction _ => instruction.reads) block.terminator.reads (by decide)

theorem Parameter.reads (parameter : Parameter) :
    Parameter.decoder.Reads parameter.tokens parameter :=
  reads_record2 (reads_nullable_text parameter.name) parameter.ty.reads (by decide)

theorem Function.reads (function : Function) :
    Function.decoder.Reads function.tokens function :=
  reads_record4 (reads_text function.name) (reads_list fun parameter _ => parameter.reads)
    function.ret.reads (reads_list fun block _ => block.reads) (by decide)

theorem Module.reads (module : Module) : Module.decoder.Reads module.tokens module :=
  reads_record2 (reads_text module.name) (reads_list fun function _ => function.reads) (by decide)

/-- Every module document is read back from its text. -/
theorem Module.decode_encode (module : Module) : Module.decode module.encode = .ok module :=
  module.reads.run_render

/-- Decoding undoes encoding, for every module document. So whatever text a document came from, the
text that is written for it is read as the same document, and checking it has the same outcome, be
it the checked module or a fault. -/
theorem Module.decode_undoes_encode :
    (∀ module : Module, Module.decode module.encode = .ok module) ∧
      ∀ (text : String) (module : Module), Module.decode text = .ok module →
        Module.decode module.encode = .ok module ∧
          ValueRange.Module.parse text = ValueRange.Module.ofDocument module ∧
          ValueRange.Module.parse module.encode = ValueRange.Module.parse text := by
  refine ⟨Module.decode_encode, fun text module hdecode => ?_⟩
  have hwritten := Module.decode_encode module
  have hparse : ValueRange.Module.parse text = ValueRange.Module.ofDocument module := by
    rw [ValueRange.Module.parse, hdecode]
  have hagain : ValueRange.Module.parse module.encode = ValueRange.Module.ofDocument module := by
    rw [ValueRange.Module.parse, hwritten]
  exact ⟨hwritten, hparse, hagain.trans hparse.symm⟩

/-- A text with blanks, escapes, fields in another order, a function and a type given by arrays, a
variant with `null`, an absent name and an unknown key. -/
def looseText : String :=
  "\x7b \"functions\": [ [\"f\\u00e9\\\"\\u0001\", " ++
    "[\x7b\"ty\":\x7b\"Int\":[18446744073709551615]\x7d\x7d], \x7b\"Void\":null\x7d, []] ],\n" ++
    "\"since\": [1e999, \x7b\x7d], \"name\": \"m\" \x7d"

/-- The document that the text holds. -/
def looseModule : Module where
  name := "m"
  functions := [⟨"fé\"\x01", [⟨none, .int 18446744073709551615⟩], .void, []⟩]

theorem looseText_is_rewritten :
    Module.decode looseText = .ok looseModule ∧ looseModule.encode ≠ looseText ∧
      Module.decode looseModule.encode = .ok looseModule ∧
      ValueRange.Module.parse looseModule.encode = ValueRange.Module.parse looseText := by
  have hdecode : Module.decode looseText = .ok looseModule := by decide +kernel
  obtain ⟨hwritten, _, hparse⟩ := Module.decode_undoes_encode.2 looseText looseModule hdecode
  exact ⟨hdecode, by decide +kernel, hwritten, hparse⟩

end ValueRange.Document
