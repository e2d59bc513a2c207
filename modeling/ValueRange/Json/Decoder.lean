import ValueRange.Json.Place

/-!
# Decoding JSON

Decoders read a value from the front of a token list. They go through the tokens once and stop at the
first fault, so which fault a document has is decided by its text order: an unknown variant where its
name stands, a repeated member where its key is repeated, a missing one at the end of the object.

A record is an object with its fields in any order, members of other names being skipped, or an array
of its fields in the declared order. A variant without content is its name; any variant is an object
with the name as its only key.
-/

namespace ValueRange.Json

/-- Why a text is not the document expected. -/
inductive Mismatch where
  /-- A required field is absent. -/
  | missingField (key : String)
  /-- A field is given twice. -/
  | duplicateField (key : String)
  /-- A variant has none of the expected names; `left` tokens follow the name it has. -/
  | unknownVariant (name : String) (expected : List String) (left : Nat)
  /-- Any other fault. -/
  | malformed
deriving DecidableEq, Repr

/-- Written form of a mismatch, if it has one. -/
def Mismatch.detail? : Mismatch → Option String
  | missingField key => some ("missing field `" ++ key ++ "`")
  | duplicateField key => some ("duplicate field `" ++ key ++ "`")
  | unknownVariant name expected _ =>
    let names := expected.map fun name => "`" ++ name ++ "`"
    some ("unknown variant `" ++ name ++ "`, expected one of " ++ ", ".intercalate names)
  | malformed => none

/-- The place of a mismatch in a text, known of an unknown variant: right after its name. -/
def Mismatch.place? (text : String) : Mismatch → Option Place
  | unknownVariant _ _ left => (completions text.toList)[left]?
  | _ => none

/-- Reads a value from the front of a token list. -/
abbrev Decoder (α : Type) := StateT (List Token) (Except Mismatch) α

namespace Decoder

variable {α β γ δ ε : Type}

/-- Take the next token. -/
def next : Decoder Token := fun tokens =>
  match tokens with
  | token :: rest => .ok (token, rest)
  | [] => .error .malformed

/-- Whether the next token is the given one. -/
def nextIs (token : Token) : Decoder Bool := fun tokens =>
  .ok (decide (tokens.head? = some token), tokens)

/-- Take the given token. -/
def expect (token : Token) : Decoder Unit := do
  if (← next) = token then pure () else throw .malformed

/-- A natural number below `2 ^ 64`. -/
def natural : Decoder UInt64 := do
  match ← next with
  | .number (some value) => pure value
  | _ => throw .malformed

/-- A string. -/
def text : Decoder String := do
  match ← next with
  | .string (some content) => pure content
  | _ => throw .malformed

/-- A truth value. -/
def boolean : Decoder Bool := do
  match ← next with
  | .bool value => pure value
  | _ => throw .malformed

/-- A value or `null`. -/
def nullable (item : Decoder α) : Decoder (Option α) := do
  if ← nextIs .null then
    let _ ← next
    pure none
  else
    pure (some (← item))

/-- The rest of an array after one of its items, which has at most as many items as `bound` has
tokens. -/
def moreItems (item : Decoder α) : List Token → Decoder (List α)
  | [] => throw .malformed
  | _ :: bound => do
    match ← next with
    | .closeBracket => pure []
    | .comma =>
      let first ← item
      let rest ← moreItems item bound
      pure (first :: rest)
    | _ => throw .malformed

/-- An array of items. Every item after the first takes a comma, so the tokens left bound their
number. -/
def list (item : Decoder α) : Decoder (List α) := do
  expect .openBracket
  if ← nextIs .closeBracket then
    let _ ← next
    pure []
  else
    let first ← item
    let rest ← moreItems item (← get)
    pure (first :: rest)

end Decoder

/-! ### Skipping values -/

/-- What the next token of a skipped value has to be. -/
inductive Awaiting where
  | value
  /-- A value, or the end of an array. -/
  | firstItem
  /-- A key, or the end of an object. -/
  | firstKey
  | key
  | colon
  /-- A comma, or the end of the innermost array or object. -/
  | separator
deriving DecidableEq, Repr

/-- A kind of nested value. -/
inductive Container where
  | array
  | object
deriving DecidableEq, Repr

/-- Part of a value that has been skipped: the containers open, the innermost first, and what is to
follow. -/
structure Skip where
  /-- What is to follow. -/
  awaiting : Awaiting
  /-- The open containers. -/
  nesting : List Container
deriving DecidableEq, Repr

namespace Skip

/-- Nothing has been skipped. -/
def start : Skip := ⟨.value, []⟩

/-- Whether the value is complete. -/
def done (skip : Skip) : Bool := skip.awaiting = .separator && skip.nesting.isEmpty

/-- Skip the first token of a value. -/
def value? (nesting : List Container) : Token → Option Skip
  | .null => some ⟨.separator, nesting⟩
  | .bool _ => some ⟨.separator, nesting⟩
  | .number _ => some ⟨.separator, nesting⟩
  | .string _ => some ⟨.separator, nesting⟩
  | .openBracket => some ⟨.firstItem, .array :: nesting⟩
  | .openBrace => some ⟨.firstKey, .object :: nesting⟩
  | _ => none

/-- Skip one token. -/
def step? (skip : Skip) (token : Token) : Option Skip :=
  match skip.awaiting, skip.nesting, token with
  | .value, nesting, token => value? nesting token
  | .firstItem, .array :: nesting, .closeBracket => some ⟨.separator, nesting⟩
  | .firstItem, nesting, token => value? nesting token
  | .firstKey, .object :: nesting, .closeBrace => some ⟨.separator, nesting⟩
  | .firstKey, nesting, .string _ => some ⟨.colon, nesting⟩
  | .key, nesting, .string _ => some ⟨.colon, nesting⟩
  | .colon, nesting, .colon => some ⟨.value, nesting⟩
  | .separator, .array :: nesting, .comma => some ⟨.value, .array :: nesting⟩
  | .separator, .array :: nesting, .closeBracket => some ⟨.separator, nesting⟩
  | .separator, .object :: nesting, .comma => some ⟨.key, .object :: nesting⟩
  | .separator, .object :: nesting, .closeBrace => some ⟨.separator, nesting⟩
  | _, _, _ => none

/-- The tokens after the value that is being skipped. -/
def rest (skip : Skip) : List Token → Except Mismatch (List Token)
  | [] => .error .malformed
  | token :: tokens =>
    match skip.step? token with
    | none => .error .malformed
    | some next => if next.done then .ok tokens else next.rest tokens

end Skip

namespace Decoder

variable {α β γ δ ε : Type}

/-- Skip a value of any kind. -/
def anything : Decoder Unit := fun tokens => do
  let rest ← Skip.start.rest tokens
  pure ((), rest)

end Decoder

/-! ### Records -/

/-- A field of a record. -/
structure Field (α : Type) where
  /-- Its key. -/
  key : String
  /-- How its value is read. -/
  value : Decoder α
  /-- What stands in for it if its key is absent. -/
  absent : Option α

namespace Field

variable {α : Type}

/-- A field that has to be given. -/
def required (key : String) (value : Decoder α) : Field α := ⟨key, value, none⟩

/-- A field with a default. -/
def withDefault (key : String) (value : Decoder α) (default : α) : Field α :=
  ⟨key, value, some default⟩

/-- A field that may be absent or `null`. -/
def optional (key : String) (value : Decoder α) : Field (Option α) :=
  ⟨key, .nullable value, some none⟩

end Field

/-- The fields of a record in the declared order, indexed by the types of their values. -/
inductive Fields : List Type → Type 1 where
  | nil : Fields []
  | cons {α : Type} {types : List Type} (field : Field α) (others : Fields types) :
    Fields (α :: types)

/-- The values of all fields. -/
@[reducible]
def Values : List Type → Type
  | [] => Unit
  | α :: types => α × Values types

/-- The values of the fields that have been met. -/
@[reducible]
def Slots : List Type → Type
  | [] => Unit
  | α :: types => Option α × Slots types

/-- No field has been met. -/
def Slots.empty : (types : List Type) → Slots types
  | [] => ()
  | _ :: types => (none, empty types)

namespace Fields

variable {types : List Type}

/-- Read what follows a key: the value of the field of that name, or a value to be skipped. -/
def member : {types : List Type} → Fields types → Slots types → String → Decoder (Slots types)
  | _, nil, slots, _ => do
    Decoder.expect .colon
    Decoder.anything
    pure slots
  | _, cons field others, (slot, slots), key =>
    if key = field.key then
      if slot.isSome then
        throw (.duplicateField key)
      else do
        Decoder.expect .colon
        let value ← field.value
        pure (some value, slots)
    else do
      let slots ← others.member slots key
      pure (slot, slots)

/-- The values of all fields, the first absent one without a stand-in being a fault. -/
def complete : {types : List Type} → Fields types → Slots types → Except Mismatch (Values types)
  | _, nil, () => .ok ()
  | _, cons field others, (slot, slots) =>
    match slot.or field.absent with
    | none => .error (.missingField field.key)
    | some value => do
      let values ← others.complete slots
      pure (value, values)

/-- The rest of an object after one of its members, which has at most as many members as `bound` has
tokens. -/
def moreMembers (fields : Fields types) : List Token → Slots types → Decoder (Slots types)
  | [], _ => throw .malformed
  | _ :: bound, slots => do
    match ← Decoder.next with
    | .closeBrace => pure slots
    | .comma =>
      let key ← Decoder.text
      let slots ← fields.member slots key
      moreMembers fields bound slots
    | _ => throw .malformed

/-- The members of an object after its opening brace. -/
def members (fields : Fields types) : Decoder (Slots types) := do
  if ← Decoder.nextIs .closeBrace then
    let _ ← Decoder.next
    pure (Slots.empty types)
  else
    let key ← Decoder.text
    let slots ← fields.member (Slots.empty types) key
    fields.moreMembers (← get) slots

/-- The items of an array after its opening bracket, one for each field. With `mayStop`, fields at
the end may be left out if they have a stand-in. -/
def inOrder (mayStop : Bool) : {types : List Type} → Fields types → Bool → Decoder (Values types)
  | _, nil, _ => do
    Decoder.expect .closeBracket
    pure ()
  | _, cons field others, first => do
    if ← Decoder.nextIs .closeBracket then
      match if mayStop then field.absent else none with
      | none => throw .malformed
      | some value =>
        let values ← others.inOrder mayStop first
        pure (value, values)
    else
      unless first do Decoder.expect .comma
      let value ← field.value
      let values ← others.inOrder mayStop false
      pure (value, values)

/-- A record, as an object or an array. -/
def decode (fields : Fields types) (mayStop : Bool) : Decoder (Values types) := do
  match ← Decoder.next with
  | .openBrace =>
    let slots ← fields.members
    liftM (fields.complete slots)
  | .openBracket => fields.inOrder mayStop true
  | _ => throw .malformed

end Fields

namespace Decoder

variable {α β γ δ ε : Type}

/-- A record of one field. -/
def record1 (first : Field α) (make : α → ε) : Decoder ε := do
  let (a, ()) ← (Fields.cons first .nil).decode false
  pure (make a)

/-- A record of two fields. -/
def record2 (first : Field α) (second : Field β) (make : α → β → ε) : Decoder ε := do
  let (a, b, ()) ← (Fields.cons first (.cons second .nil)).decode false
  pure (make a b)

/-- A record of three fields. -/
def record3 (first : Field α) (second : Field β) (third : Field γ) (make : α → β → γ → ε) :
    Decoder ε := do
  let (a, b, c, ()) ← (Fields.cons first (.cons second (.cons third .nil))).decode false
  pure (make a b c)

/-- A record of four fields. -/
def record4 (first : Field α) (second : Field β) (third : Field γ) (fourth : Field δ)
    (make : α → β → γ → δ → ε) : Decoder ε := do
  let (a, b, c, d, ()) ←
    (Fields.cons first (.cons second (.cons third (.cons fourth .nil)))).decode false
  pure (make a b c d)

end Decoder

/-! ### Variants -/

/-- A variant of an alternative. -/
structure Variant (α : Type) where
  /-- Its name. -/
  name : String
  /-- Its value, if it has no content. -/
  plain : Option α
  /-- How its content is read. -/
  content : Decoder α

namespace Variant

variable {α : Type}

/-- A variant without content, for which `null` may stand. -/
def unit (name : String) (value : α) : Variant α :=
  ⟨name, some value, do Decoder.expect .null; pure value⟩

/-- A variant with content. -/
def holding (name : String) (content : Decoder α) : Variant α := ⟨name, none, content⟩

/-- The variant of the given name. -/
def named (variants : List (Variant α)) (name : String) : Decoder (Variant α) :=
  match variants.find? fun variant => variant.name = name with
  | some variant => pure variant
  | none => do
    let rest ← get
    throw (.unknownVariant name (variants.map Variant.name) rest.length)

end Variant

/-- A value of one of the given variants. -/
def Decoder.oneOf {α : Type} (variants : List (Variant α)) : Decoder α := do
  match ← next with
  | .string (some name) =>
    let variant ← Variant.named variants name
    match variant.plain with
    | some value => pure value
    | none => throw .malformed
  | .openBrace =>
    let name ← text
    let variant ← Variant.named variants name
    expect .colon
    let value ← variant.content
    expect .closeBrace
    pure value
  | _ => throw .malformed

/-- Decode a whole text. -/
def Decoder.run {α : Type} (decoder : Decoder α) (text : String) : Except Mismatch α := do
  match ← StateT.run decoder (scan text.toList) with
  | (value, []) => pure value
  | (_, _ :: _) => throw .malformed

end ValueRange.Json
