import ValueRange.Document.Encode
import ValueRange.Json.Decoder
import ValueRange.Proofs.Lexing

/-!
# Decoding what was written

A decoder reads a value from tokens if it takes exactly these tokens off the front of any list and
yields the value. Each way of building decoders has its counterpart among the ways of writing tokens,
and the one reads what the other wrote as soon as this holds of the parts. The statements are made
for one value at a time, so a document type needs a single argument by cases over its constructors.
-/

namespace ValueRange.Json

/-! ## Legible tokens -/

theorem legible_nil : Legible [] := ⟨List.not_mem_nil, .nil⟩

theorem legible_singleton {token : Token} (hvalid : token ≠ .invalid) : Legible [token] :=
  ⟨by simpa using Ne.symm hvalid, .singleton _⟩

/-- A token that is no number keeps what is around it apart. -/
theorem Legible.append_cons {left right : List Token} {token : Token} (hleft : Legible left)
    (hright : Legible right) (hvalid : token ≠ .invalid) (hnumber : token.isNumber = false) :
    Legible (left ++ token :: right) where
  valid := by
    rw [List.mem_append, List.mem_cons]
    rintro (hmem | heq | hmem)
    · exact hleft.valid hmem
    · exact hvalid heq.symm
    · exact hright.valid hmem
  apart := by
    rw [List.isChain_append, List.isChain_cons]
    refine ⟨hleft.apart, ⟨?_, hright.apart⟩, ?_⟩
    · intro next _ hnext
      rw [hnumber] at hnext
      cases hnext
    · intro last _ next hnext _
      cases hnext
      exact hnumber

theorem Legible.cons {tokens : List Token} {token : Token} (htokens : Legible tokens)
    (hvalid : token ≠ .invalid) (hnumber : token.isNumber = false) : Legible (token :: tokens) :=
  legible_nil.append_cons htokens hvalid hnumber

theorem Legible.concat {tokens : List Token} {token : Token} (htokens : Legible tokens)
    (hvalid : token ≠ .invalid) (hnumber : token.isNumber = false) : Legible (tokens ++ [token]) :=
  htokens.append_cons legible_nil hvalid hnumber

namespace Token

theorem separated_cons_cons (first second : List Token) (rest : List (List Token)) :
    separated (first :: second :: rest) = first ++ .comma :: separated (second :: rest) := rfl

theorem separated_cons (first : List Token) (rest : List (List Token)) :
    separated (first :: rest) = first ++ rest.flatMap (.comma :: ·) := by
  induction rest generalizing first with
  | nil => simp [separated]
  | cons second rest ih => rw [separated_cons_cons, ih, List.flatMap_cons, List.cons_append]

theorem legible_separated {parts : List (List Token)} (hparts : ∀ part ∈ parts, Legible part) :
    Legible (separated parts) := by
  induction parts with
  | nil => exact legible_nil
  | cons first rest ih =>
      obtain ⟨hfirst, hrest⟩ := List.forall_mem_cons.mp hparts
      cases rest with
      | nil => exact hfirst
      | cons second rest =>
          rw [separated_cons_cons]
          exact hfirst.append_cons (ih hrest) nofun rfl

theorem legible_object {members : List (String × List Token)}
    (hmembers : ∀ member ∈ members, Legible member.2) : Legible (object members) := by
  refine Legible.concat (Legible.cons (legible_separated ?_) nofun rfl) nofun rfl
  intro part hpart
  obtain ⟨⟨key, value⟩, hmember, rfl⟩ := List.mem_map.mp hpart
  have hvalue : Legible (.colon :: value) := (hmembers (key, value) hmember).cons nofun rfl
  exact hvalue.cons nofun rfl

end Token

namespace Decoder

variable {α β γ δ ε : Type}

/-- The decoder reads the value from legible tokens, whatever follows. No value starts with the end
of an array. -/
structure Reads (decoder : Decoder α) (tokens : List Token) (value : α) : Prop where
  /-- The tokens can be told apart in their text. -/
  legible : Legible tokens
  /-- There is a first token, and an array does not end with it. -/
  opens : ∃ first others, tokens = first :: others ∧ first ≠ .closeBracket
  /-- Just these tokens are taken off. -/
  decodes : ∀ rest, decoder (tokens ++ rest) = .ok (value, rest)

theorem bind_ok {decoder : Decoder α} {next : α → Decoder β} {tokens rest : List Token} {value : α}
    (hvalue : decoder tokens = .ok (value, rest)) :
    (decoder >>= next) tokens = next value rest := by
  change (decoder tokens >>= fun outcome => next outcome.1 outcome.2) = _
  rw [hvalue]
  rfl

theorem next_cons (token : Token) (rest : List Token) : next (token :: rest) = .ok (token, rest) :=
  rfl

theorem expect_cons (token : Token) (rest : List Token) :
    expect token (token :: rest) = .ok ((), rest) := by
  rw [expect, bind_ok (next_cons token rest), if_pos rfl]
  rfl

theorem text_cons (content : String) (rest : List Token) :
    text (.string (some content) :: rest) = .ok (content, rest) := rfl

theorem nextIs_cons_of_ne {token other : Token} (hne : other ≠ token) (rest : List Token) :
    nextIs token (other :: rest) = .ok (false, other :: rest) := by
  rw [nextIs, decide_eq_false]
  simpa using hne

/-! ## Single values -/

theorem reads_natural (value : UInt64) : natural.Reads (Token.ofNatural value) value where
  legible := legible_singleton nofun
  opens := ⟨_, _, rfl, nofun⟩
  decodes _ := rfl

theorem reads_text (content : String) : text.Reads (Token.ofText content) content where
  legible := legible_singleton nofun
  opens := ⟨_, _, rfl, nofun⟩
  decodes _ := rfl

theorem Reads.bind {decoder : Decoder α} {tokens : List Token} {value : α}
    (hreads : decoder.Reads tokens value) {next : α → Decoder β} {result : β}
    (hnext : ∀ rest, next value rest = .ok (result, rest)) :
    (decoder >>= next).Reads tokens result where
  legible := hreads.legible
  opens := hreads.opens
  decodes rest := by rw [bind_ok (hreads.decodes rest), hnext]

theorem Reads.map {decoder : Decoder α} {tokens : List Token} {value : α}
    (hreads : decoder.Reads tokens value) (f : α → β) :
    (f <$> decoder).Reads tokens (f value) := by
  rw [map_eq_pure_bind]
  exact hreads.bind fun _ => rfl

/-- A value that may be absent, written as `null` then. -/
theorem reads_nullable {item : Decoder α} {tokens : α → List Token} {value? : Option α}
    (hitem : ∀ value ∈ value?, item.Reads (tokens value) value)
    (hnull : ∀ value ∈ value?, (tokens value).head? ≠ some .null) :
    (nullable item).Reads (Token.ofOption tokens value?) value? := by
  cases value? with
  | none => exact ⟨legible_singleton nofun, ⟨_, _, rfl, nofun⟩, fun _ => rfl⟩
  | some value =>
      obtain ⟨hlegible, ⟨first, others, htokens, hbracket⟩, hdecodes⟩ := hitem value rfl
      have hfirst : first ≠ .null := by
        have hhead := hnull value rfl
        rw [htokens] at hhead
        simpa using hhead
      refine ⟨hlegible, ⟨first, others, htokens, hbracket⟩, fun rest => ?_⟩
      have hnext : nextIs .null (tokens value ++ rest) = .ok (false, tokens value ++ rest) := by
        rw [htokens]
        exact nextIs_cons_of_ne hfirst _
      rw [Token.ofOption, nullable, bind_ok hnext, if_neg Bool.false_ne_true,
        bind_ok (hdecodes rest)]
      rfl

/-! ## Arrays -/

theorem moreItems_flatMap {item : Decoder α} {tokens : α → List Token} {values : List α}
    (hitem : ∀ value ∈ values, item.Reads (tokens value) value) {bound rest : List Token}
    (hbound : (values.flatMap (fun value => .comma :: tokens value) ++
      .closeBracket :: rest).length ≤ bound.length) :
    moreItems item bound
        (values.flatMap (fun value => .comma :: tokens value) ++ .closeBracket :: rest) =
      .ok (values, rest) := by
  induction values generalizing bound with
  | nil =>
      cases bound with
      | nil => cases hbound
      | cons _ bound => rfl
  | cons value values ih =>
      obtain ⟨hvalue, hvalues⟩ := List.forall_mem_cons.mp hitem
      rw [List.flatMap_cons, List.cons_append, List.cons_append, List.append_assoc] at hbound ⊢
      cases bound with
      | nil => cases hbound
      | cons _ bound =>
          rw [List.length_cons, List.length_cons, List.length_append] at hbound
          have hlength : (values.flatMap (fun value => .comma :: tokens value) ++
              .closeBracket :: rest).length ≤ bound.length := by omega
          have hmore := ih hvalues hlength
          rw [moreItems, bind_ok (next_cons _ _)]
          dsimp only
          rw [bind_ok (hvalue.decodes _), bind_ok hmore]
          rfl

/-- An array is read if each of its items is. -/
theorem reads_list {item : Decoder α} {tokens : α → List Token} {values : List α}
    (hitem : ∀ value ∈ values, item.Reads (tokens value) value) :
    (list item).Reads (Token.ofList tokens values) values where
  legible := by
    refine Legible.concat (Legible.cons (Token.legible_separated ?_) nofun rfl) nofun rfl
    intro part hpart
    obtain ⟨value, hvalue, rfl⟩ := List.mem_map.mp hpart
    exact (hitem value hvalue).legible
  opens := ⟨.openBracket, _, rfl, nofun⟩
  decodes rest := by
    rw [Token.ofList, List.cons_append, List.cons_append, List.append_assoc, list,
      bind_ok (expect_cons _ _)]
    cases values with
    | nil => rfl
    | cons value values =>
        obtain ⟨hvalue, hvalues⟩ := List.forall_mem_cons.mp hitem
        obtain ⟨first, others, htokens, hfirst⟩ := hvalue.opens
        let remaining :=
          values.flatMap (fun value => .comma :: tokens value) ++ .closeBracket :: rest
        have hnext : nextIs .closeBracket (tokens value ++ remaining) =
            .ok (false, tokens value ++ remaining) := by
          rw [htokens]
          exact nextIs_cons_of_ne hfirst _
        have hget : (get : Decoder (List Token)) remaining = .ok (remaining, remaining) := rfl
        have hmore : moreItems item remaining remaining = .ok (values, rest) :=
          moreItems_flatMap hvalues (Nat.le_refl _)
        rw [List.map_cons, Token.separated_cons, List.flatMap_map, List.append_assoc,
          List.singleton_append]
        change (nextIs .closeBracket >>= _) (tokens value ++ remaining) = _
        rw [bind_ok hnext, if_neg Bool.false_ne_true, bind_ok (hvalue.decodes remaining),
          bind_ok hget, bind_ok hmore]
        rfl

end Decoder

/-! ## Records -/

/-- Every field has a value. -/
def Slots.full : {types : List Type} → Values types → Slots types
  | [], () => ()
  | _ :: _, (value, values) => (some value, full values)

namespace Fields

variable {types : List Type} {α : Type} {field : Field α}

/-- The keys of the fields. -/
def keys : {types : List Type} → Fields types → List String
  | _, nil => []
  | _, cons field others => field.key :: others.keys

/-- Members that give every field its value, in the declared order. -/
inductive Gives : {types : List Type} → Fields types → List (String × List Token) →
    Values types → Prop
  | nil : Gives .nil [] ()
  | cons {α : Type} {types : List Type} {field : Field α} {others : Fields types}
      {tokens : List Token} {value : α} {members : List (String × List Token)}
      {values : Values types} (hvalue : field.value.Reads tokens value)
      (hothers : Gives others members values) :
      Gives (.cons field others) ((field.key, tokens) :: members) (value, values)

/-- Reading members one after the other leads from some fields that have been met to others. -/
inductive Fills (fields : Fields types) :
    Slots types → List (String × List Token) → Slots types → Prop
  | nil {slots : Slots types} : Fills fields slots [] slots
  | cons {before middle after : Slots types} {key : String} {tokens : List Token}
      {members : List (String × List Token)}
      (hmember : ∀ rest, fields.member before key (.colon :: tokens ++ rest) = .ok (middle, rest))
      (hmembers : Fills fields middle members after) :
      Fills fields before ((key, tokens) :: members) after

theorem member_of_key_ne {others : Fields types} {before after : Slots types} {slot : Option α}
    {key : String} {tokens rest : List Token} (hkey : key ≠ field.key)
    (hmember : others.member before key tokens = .ok (after, rest)) :
    (cons field others).member (slot, before) key tokens = .ok ((slot, after), rest) := by
  rw [member, if_neg hkey, Decoder.bind_ok hmember]
  rfl

theorem member_of_key_eq {others : Fields types} {slots : Slots types} {value : α}
    {tokens : List Token} (hvalue : field.value.Reads tokens value) (rest : List Token) :
    (cons field others).member (none, slots) field.key (.colon :: tokens ++ rest) =
      .ok ((some value, slots), rest) := by
  rw [member, if_pos rfl, Option.isSome_none, if_neg Bool.false_ne_true, List.cons_append,
    Decoder.bind_ok (Decoder.expect_cons _ _), Decoder.bind_ok (hvalue.decodes rest)]
  rfl

/-- Members of other names leave a further field alone. -/
theorem Fills.cons_field {others : Fields types} {before after : Slots types}
    {members : List (String × List Token)} (hfills : others.Fills before members after)
    (hkey : field.key ∉ members.map Prod.fst) (slot : Option α) :
    (Fields.cons field others).Fills (slot, before) members (slot, after) := by
  induction hfills with
  | nil => exact .nil
  | cons hmember _ ih =>
      rw [List.map_cons, List.mem_cons, not_or] at hkey
      exact .cons (fun rest => member_of_key_ne (Ne.symm hkey.1) (hmember rest)) (ih hkey.2)

theorem Gives.keys_eq {fields : Fields types} {members : List (String × List Token)}
    {values : Values types} (hgives : fields.Gives members values) :
    members.map Prod.fst = fields.keys := by
  induction hgives with
  | nil => rfl
  | cons _ _ ih => exact congrArg (List.cons _) ih

theorem Gives.legible {fields : Fields types} {members : List (String × List Token)}
    {values : Values types} (hgives : fields.Gives members values) :
    ∀ member ∈ members, Legible member.2 := by
  induction hgives with
  | nil => exact List.forall_mem_nil _
  | cons hvalue _ ih => exact List.forall_mem_cons.mpr ⟨hvalue.legible, ih⟩

/-- Each member fills the slot of its own field, as no other field has its key. -/
theorem Gives.fills {fields : Fields types} {members : List (String × List Token)}
    {values : Values types} (hgives : fields.Gives members values) (hkeys : fields.keys.Nodup) :
    fields.Fills (Slots.empty types) members (Slots.full values) := by
  induction hgives with
  | nil => exact .nil
  | cons hvalue hothers ih =>
      obtain ⟨hkey, hkeys⟩ := List.nodup_cons.mp hkeys
      rw [← hothers.keys_eq] at hkey
      exact .cons (member_of_key_eq hvalue) ((ih hkeys).cons_field hkey _)

theorem complete_full (fields : Fields types) (values : Values types) :
    fields.complete (Slots.full values) = .ok values := by
  induction fields with
  | nil => rfl
  | cons field others ih =>
      obtain ⟨value, values⟩ := values
      rw [Slots.full, complete]
      simp only [Option.some_or, ih]
      rfl

/-- Members behind a first one, with what separates and ends them. -/
def furtherMembers (members : List (String × List Token)) (rest : List Token) : List Token :=
  members.flatMap (fun member => .comma :: .string (some member.1) :: .colon :: member.2) ++
    .closeBrace :: rest

theorem Fills.moreMembers {fields : Fields types} {before after : Slots types}
    {members : List (String × List Token)} (hfills : fields.Fills before members after)
    {bound rest : List Token} (hbound : (furtherMembers members rest).length ≤ bound.length) :
    fields.moreMembers bound before (furtherMembers members rest) = .ok (after, rest) := by
  induction hfills generalizing bound with
  | nil =>
      cases bound with
      | nil => cases hbound
      | cons _ bound => rfl
  | @cons before middle after key tokens members hmember _ ih =>
      have hfurther : furtherMembers ((key, tokens) :: members) rest =
          .comma :: .string (some key) :: (.colon :: tokens ++ furtherMembers members rest) := by
        simp [furtherMembers]
      rw [hfurther] at hbound ⊢
      cases bound with
      | nil => cases hbound
      | cons _ bound =>
          rw [List.length_cons, List.length_cons, List.length_cons, List.length_append] at hbound
          rw [Fields.moreMembers, Decoder.bind_ok (Decoder.next_cons _ _)]
          dsimp only
          rw [Decoder.bind_ok (Decoder.text_cons _ _), Decoder.bind_ok (hmember _)]
          exact ih (by omega)

theorem Fills.members_eq {fields : Fields types} {before after : Slots types}
    {members : List (String × List Token)} (hfills : fields.Fills before members after)
    (hbefore : before = Slots.empty types) (rest : List Token) :
    fields.members (Token.separated (members.map fun (key, value) =>
        .string (some key) :: .colon :: value) ++ .closeBrace :: rest) = .ok (after, rest) := by
  cases hfills with
  | nil =>
      rw [hbefore]
      rfl
  | @cons _ middle _ key tokens members hmember hmore =>
      have hfurther : Token.separated (((key, tokens) :: members).map fun (key, value) =>
          .string (some key) :: .colon :: value) ++ .closeBrace :: rest =
            .string (some key) :: (.colon :: tokens ++ furtherMembers members rest) := by
        rw [List.map_cons, Token.separated_cons]
        simp [furtherMembers, List.flatMap_map]
      have hnext (others : List Token) :
          Decoder.nextIs .closeBrace (.string (some key) :: others) =
            .ok (false, .string (some key) :: others) := rfl
      have hget : (get : Decoder (List Token)) (furtherMembers members rest) =
          .ok (furtherMembers members rest, furtherMembers members rest) := rfl
      rw [hbefore] at hmember
      rw [hfurther, Fields.members, Decoder.bind_ok (hnext _),
        if_neg Bool.false_ne_true, Decoder.bind_ok (Decoder.text_cons _ _),
        Decoder.bind_ok (hmember _), Decoder.bind_ok hget]
      exact hmore.moreMembers (Nat.le_refl _)

/-- A record is read if its members give all fields their values, and the keys differ. -/
theorem Gives.reads {fields : Fields types} {members : List (String × List Token)}
    {values : Values types} (hgives : fields.Gives members values) (hkeys : fields.keys.Nodup)
    (mayStop : Bool) : (fields.decode mayStop).Reads (Token.object members) values where
  legible := Token.legible_object hgives.legible
  opens := ⟨.openBrace, _, rfl, nofun⟩
  decodes rest := by
    have hmembers := (hgives.fills hkeys).members_eq rfl rest
    rw [Token.object, List.cons_append, List.cons_append, List.append_assoc,
      List.singleton_append, decode, Decoder.bind_ok (Decoder.next_cons _ _)]
    dsimp only
    rw [Decoder.bind_ok hmembers, fields.complete_full]
    rfl

end Fields

namespace Decoder

variable {α β γ δ ε : Type}

section

variable {first : Field α} {second : Field β} {third : Field γ} {fourth : Field δ}
  {firstTokens secondTokens thirdTokens fourthTokens : List Token} {a : α} {b : β} {c : γ} {d : δ}
  (hfirst : first.value.Reads firstTokens a)

include hfirst

theorem reads_record1 {make : α → ε} :
    (record1 first make).Reads (Token.object [(first.key, firstTokens)]) (make a) :=
  ((Fields.Gives.cons hfirst .nil).reads (by simp [Fields.keys]) false).bind fun _ => rfl

variable (hsecond : second.value.Reads secondTokens b)

include hsecond

theorem reads_record2 {make : α → β → ε} (hkeys : [first.key, second.key].Nodup) :
    (record2 first second make).Reads
      (Token.object [(first.key, firstTokens), (second.key, secondTokens)]) (make a b) :=
  ((Fields.Gives.cons hfirst (.cons hsecond .nil)).reads hkeys false).bind fun _ => rfl

variable (hthird : third.value.Reads thirdTokens c)

include hthird

theorem reads_record3 {make : α → β → γ → ε}
    (hkeys : [first.key, second.key, third.key].Nodup) :
    (record3 first second third make).Reads
      (Token.object [(first.key, firstTokens), (second.key, secondTokens),
        (third.key, thirdTokens)]) (make a b c) :=
  ((Fields.Gives.cons hfirst (.cons hsecond (.cons hthird .nil))).reads hkeys false).bind
    fun _ => rfl

variable (hfourth : fourth.value.Reads fourthTokens d)

include hfourth

theorem reads_record4 {make : α → β → γ → δ → ε}
    (hkeys : [first.key, second.key, third.key, fourth.key].Nodup) :
    (record4 first second third fourth make).Reads
      (Token.object [(first.key, firstTokens), (second.key, secondTokens),
        (third.key, thirdTokens), (fourth.key, fourthTokens)]) (make a b c d) :=
  ((Fields.Gives.cons hfirst (.cons hsecond (.cons hthird (.cons hfourth .nil)))).reads hkeys
    false).bind fun _ => rfl

end

/-! ## Variants -/

variable {variants : List (Variant α)} {name : String} {variant : Variant α} {value : α}
  (hfind : (variants.find? fun variant => variant.name = name) = some variant)

include hfind

theorem named_eq (rest : List Token) : Variant.named variants name rest = .ok (variant, rest) := by
  rw [Variant.named, hfind]
  rfl

/-- A variant without content is read from its name. -/
theorem reads_unit (hplain : variant.plain = some value) :
    (oneOf variants).Reads (Token.ofText name) value where
  legible := legible_singleton nofun
  opens := ⟨_, _, rfl, nofun⟩
  decodes rest := by
    rw [Token.ofText, List.singleton_append, oneOf, bind_ok (next_cons _ _)]
    dsimp only
    rw [bind_ok (named_eq hfind rest), hplain]
    rfl

/-- A variant with content is read from its name and content. -/
theorem reads_variant {tokens : List Token} (hcontent : variant.content.Reads tokens value) :
    (oneOf variants).Reads (Token.variant name tokens) value where
  legible := Token.legible_object (List.forall_mem_singleton.mpr hcontent.legible)
  opens := ⟨.openBrace, _, rfl, nofun⟩
  decodes rest := by
    have htokens : Token.variant name tokens ++ rest =
        .openBrace :: .string (some name) :: .colon :: (tokens ++ .closeBrace :: rest) := by
      simp [Token.variant, Token.object, Token.separated]
    rw [htokens, oneOf, bind_ok (next_cons _ _)]
    dsimp only
    rw [bind_ok (text_cons _ _), bind_ok (named_eq hfind _), bind_ok (expect_cons _ _),
      bind_ok (hcontent.decodes _), bind_ok (expect_cons _ _)]
    rfl

end Decoder

/-- A text made of the tokens of a value is decoded to the value. -/
theorem Decoder.Reads.run_render {α : Type} {decoder : Decoder α} {tokens : List Token} {value : α}
    (hreads : decoder.Reads tokens value) :
    decoder.run (String.ofList (render tokens)) = .ok value := by
  have hdecodes := hreads.decodes []
  rw [List.append_nil] at hdecodes
  rw [Decoder.run, String.toList_ofList, scan_render hreads.legible, StateT.run, hdecodes]
  rfl

end ValueRange.Json
