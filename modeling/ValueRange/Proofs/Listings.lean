import Mathlib.Data.List.Sort
import ValueRange.Analysis.Report
import ValueRange.Listing
import ValueRange.Proofs.Closedness

/-!
# Listings and reports

Three texts tell of the instructions of a function. The listing follows the blocks and their
sequences, the count adds up the arena and the blocks, and the report follows the store that a run
leaves behind. They agree, because the sequences go through the arena position by position and a run
neither binds a position that is not tracked nor drops one that is.
-/

namespace ValueRange

/-- The instructions in the order of the document, in each block the terminator last. -/
def Document.Function.sequence (document : Document.Function) : List Document.Instruction :=
  document.blocks.flatMap fun block => block.body ++ [block.terminator]

/-- Where an instruction stands in a body. -/
inductive Place
  /-- At a position of the arena. -/
  | instruction (id : Nat)
  /-- At the end of a block. -/
  | terminator (block : Block)
deriving DecidableEq

namespace Place

/-- Written form of the instruction. -/
def text (printer : Printer) : Place → Except Fault String
  | instruction id => printer.instruction id
  | terminator block => printer.terminator block.terminator

/-- What kind of instruction it is. -/
def mnemonic (body : Body) : Place → Except Fault String
  | instruction id => do
    let node ← body.node id
    pure node.instruction.mnemonic
  | terminator block => pure block.terminator.mnemonic

/-- The interval that a store has for the instruction. -/
def interval? (store : Store Interval) : Place → Option Interval
  | instruction id => store.get? id
  | terminator _ => none

/-- An entry lists the instruction and marks it if a store binds it. -/
def Lists (printer : Printer) (store : Store Interval) (place : Place) (entry : String) : Prop :=
  ∃ text mnemonic, place.text printer = .ok text ∧ place.mnemonic printer.body = .ok mnemonic ∧
    entry =
      if (place.interval? store).isSome then
        "-->" ++ text ++ "\n"
      else
        "   " ++ text ++ " \x7bkind = " ++ mnemonic ++ "\x7d\n"

/-- A line reports the interval that a store has for the instruction. -/
def Reports (printer : Printer) (store : Store Interval) (place : Place) (line : String) : Prop :=
  ∃ text interval, place.text printer = .ok text ∧ place.interval? store = some interval ∧
    line = text ++ " = " ++ interval.text ++ "\n"

end Place

/-- The places of a block in order. -/
def Block.places (block : Block) : List Place :=
  block.sequence.map Place.instruction ++ [Place.terminator block]

/-- The places of a body, block after block. -/
def Body.places (body : Body) : List Place := body.blocks.flatMap Block.places

/-- An entry of a listing is marked. -/
def Listing.marked (entry : String) : Bool := "-->".toList.isPrefixOf entry.toList

/-- The places with a marked entry, if the entries are those of the places in order. -/
def Body.markedPlaces (body : Body) (entries : List String) : List Place :=
  ((body.places.zip entries).filter fun listed => Listing.marked listed.2).map Prod.fst

namespace Function

/-- A place of the body holds an instruction of the document. -/
inductive PlacedAt (function : Function) (body : Body) : Document.Instruction → Place → Prop
  | instruction {instruction : Document.Instruction} {id : Nat} {node : Node}
      (hnode : body.node? id = some node)
      (hrepresents : node.Represents (function.Refers body)
        (fun label => (body.blocks.map Block.label).count label = 1) instruction) :
      PlacedAt function body instruction (.instruction id)
  | terminator {document : Document.Block} {block : Block}
      (hrepresents : block.Represents (function.Refers body)
        (fun label => (body.blocks.map Block.label).count label = 1) document) :
      PlacedAt function body document.terminator (.terminator block)

/-- The listing with the given entries, the count and the report with the given lines tell of the
instructions of the document of a function. -/
structure ListingsAgree (function : Function) (body : Body) (document : Document.Function)
    (ranges : Ranges) (entries lines : List String) : Prop where
  /-- The places of the body follow the document. -/
  places : List.Forall₂ (function.PlacedAt body) document.sequence body.places
  /-- There is an entry for each place. -/
  listed : List.Forall₂ (Place.Lists (function.printer body) ranges.store) body.places entries
  /-- The entries follow the header of the listing. -/
  listing : function.instructionListing =
    .ok ("Supported instructions in function: " ++ function.name ++ "\n" ++ String.join entries)
  /-- The count is the number of the entries. -/
  count : function.countListing =
    "Function " ++ function.name ++ " contains " ++ toString entries.length ++
      " LLVM instructions\n"
  /-- The instructions with a marked entry are those with an interval, in the same order. -/
  marked : body.markedPlaces entries = ranges.store.toList.map fun binding => .instruction binding.1
  /-- There is a line for each marked entry. -/
  reported : List.Forall₂ (Place.Reports (function.printer body) ranges.store)
    (body.markedPlaces entries) lines
  /-- The lines follow the header of the report. -/
  report : function.report ranges =
    .ok ("*** interval range analysis for function " ++ function.name ++ " ***\n" ++
      String.join lines)

end Function

/-! ## Places -/

theorem Place.Lists.marked_eq {printer : Printer} {store : Store Interval} {place : Place}
    {entry : String} (hentry : place.Lists printer store entry) :
    Listing.marked entry = (place.interval? store).isSome := by
  obtain ⟨text, mnemonic, _, _, rfl⟩ := hentry
  split
  · rename_i hsome
    simp [Listing.marked, List.isPrefixOf, hsome]
  · rename_i hnone
    simp [Listing.marked, List.isPrefixOf, hnone]

/-- The places with a marked entry are those with an interval. -/
theorem map_fst_filter_marked {printer : Printer} {store : Store Interval} {places : List Place}
    {entries : List String} (hentries : List.Forall₂ (Place.Lists printer store) places entries) :
    ((places.zip entries).filter fun listed => Listing.marked listed.2).map Prod.fst =
      places.filter fun place => (place.interval? store).isSome := by
  induction hentries with
  | nil => rfl
  | cons hentry _ ih =>
      rw [List.zip_cons_cons, List.filter_cons, List.filter_cons, hentry.marked_eq, ← ih]
      split <;> rfl

/-- Among the places of blocks, those with an interval are the bound positions of the sequences. -/
theorem filter_places (blocks : List Block) (store : Store Interval) :
    ((blocks.flatMap Block.places).filter fun place => (place.interval? store).isSome) =
      ((blocks.flatMap Block.sequence).filter store.contains).map Place.instruction := by
  induction blocks with
  | nil => rfl
  | cons block rest ih =>
      have hblock : (block.places.filter fun place => (place.interval? store).isSome) =
          (block.sequence.filter store.contains).map Place.instruction := by
        rw [Block.places, List.filter_append, List.filter_map]
        exact List.append_nil _
      simp only [List.flatMap_cons, List.filter_append, List.map_append, hblock, ih]

theorem length_places (blocks : List Block) :
    (blocks.flatMap Block.places).length =
      (blocks.flatMap Block.sequence).length + blocks.length := by
  induction blocks with
  | nil => rfl
  | cons block rest ih =>
      simp only [List.flatMap_cons, List.length_append, List.length_cons, Block.places,
        List.length_map, List.length_nil, ih]
      omega

/-- Of an ascending list with every bound identifier, the bound ones are those of the bindings. -/
theorem Store.filter_contains {α : Type} {store : Store α} {ids : List Nat}
    (hids : ids.Pairwise (· < ·)) (hbound : ∀ id, store.contains id = true → id ∈ ids) :
    ids.filter store.contains = store.toList.map Prod.fst := by
  have hstore : (store.toList.map Prod.fst).Pairwise (· < ·) :=
    List.pairwise_map.mpr store.ascending
  apply (hids.filter _).eq_of_mem_iff hstore
  intro id
  rw [List.mem_filter, and_iff_right_of_imp (hbound id), contains, Option.isSome_iff_exists]
  simp only [← mem_toList_iff, List.mem_map, Prod.exists, exists_and_right, exists_eq_right]

namespace Function

variable {function : Function} {body : Body} {document : Document.Function}

/-! ## Entries and lines -/

section Writing

variable {printer : Printer} {store : Store Interval}

theorem lists_of_instructionEntry {id : Nat} {entry : String}
    (hstore : (store.get? id).isSome = printer.body.tracked id)
    (hentry : instructionEntry printer id = .ok entry) :
    (Place.instruction id).Lists printer store entry := by
  obtain ⟨node, hnode, hentry⟩ := Outcome.bind_eq_ok_iff.mp hentry
  obtain ⟨text, htext, hentry⟩ := Outcome.bind_eq_ok_iff.mp hentry
  have htracked : (store.get? id).isSome = node.instruction.tracked := by
    rw [hstore, Body.tracked, Body.node_eq_ok_iff.mp hnode]
  refine ⟨text, node.instruction.mnemonic, htext, ?_, ?_⟩
  · rw [Place.mnemonic, hnode]
    rfl
  · rw [Place.interval?, htracked]
    cases hcase : node.instruction.tracked with
    | true =>
        rw [hcase] at hentry
        exact (Outcome.pure_eq_ok_iff.mp hentry).symm
    | false =>
        rw [hcase] at hentry
        exact (Outcome.pure_eq_ok_iff.mp hentry).symm

/-- The entries of a block are those of its places. -/
theorem forall₂_lists_of_blockEntries {block : Block} {entries : List String}
    (hstore : ∀ id, (store.get? id).isSome = printer.body.tracked id)
    (hentries : blockEntries printer block = .ok entries) :
    List.Forall₂ (Place.Lists printer store) block.places entries := by
  obtain ⟨listed, hlisted, hentries⟩ := Outcome.bind_eq_ok_iff.mp hentries
  obtain ⟨text, htext, hentries⟩ := Outcome.bind_eq_ok_iff.mp hentries
  cases Outcome.pure_eq_ok_iff.mp hentries
  refine List.rel_append ?_ (.cons ⟨text, _, htext, rfl, rfl⟩ .nil)
  rw [List.forall₂_map_left_iff]
  exact (Outcome.mapM_eq_ok_iff.mp hlisted).imp fun id _ => lists_of_instructionEntry (hstore id)

/-- The entries of a listing are those of the places. -/
theorem forall₂_lists_of_instructionEntries {entries : List String}
    (hstore : ∀ id, (store.get? id).isSome = body.tracked id) (hbody : function.body = some body)
    (hentries : function.instructionEntries = .ok entries) :
    List.Forall₂ (Place.Lists (function.printer body) store) body.places entries := by
  rw [instructionEntries, hbody] at hentries
  obtain ⟨listed, hlisted, hentries⟩ := Outcome.bind_eq_ok_iff.mp hentries
  cases Outcome.pure_eq_ok_iff.mp hentries
  rw [Body.places, List.flatMap_def]
  apply List.rel_flatten
  rw [List.forall₂_map_left_iff]
  exact (Outcome.mapM_eq_ok_iff.mp hlisted).imp fun _ _ => forall₂_lists_of_blockEntries hstore

/-- The lines of a report are those of the positions that are bound. -/
theorem forall₂_reports_of_mapM {lines : List String}
    (hlines : store.toList.mapM (reportLine printer) = .ok lines) :
    List.Forall₂ (Place.Reports printer store)
      (store.toList.map fun binding => .instruction binding.1) lines := by
  rw [List.forall₂_map_left_iff]
  have hbindings := (List.forall₂_and_left _ _).mpr
    ⟨fun _ hbinding => Store.mem_toList_iff.mp hbinding, Outcome.mapM_eq_ok_iff.mp hlines⟩
  refine hbindings.imp fun binding line hbinding => ?_
  obtain ⟨hinterval, hline⟩ := hbinding
  obtain ⟨text, htext, hline⟩ := Outcome.bind_eq_ok_iff.mp hline
  exact ⟨text, binding.2, htext, hinterval, (Outcome.pure_eq_ok_iff.mp hline).symm⟩

end Writing

/-! ## Places of a document -/

/-- Every instruction of the document is placed at its position. -/
theorem Represents.forall₂_instructions (hrepresents : function.Represents body document) :
    List.Forall₂ (fun instruction id => function.PlacedAt body instruction (.instruction id))
      document.instructions (body.blocks.flatMap Block.sequence) := by
  rw [hrepresents.sequences, List.forall₂_iff_get]
  refine ⟨?_, fun position hposition _ => ?_⟩
  · rw [hrepresents.nodes.length_eq, Array.length_toList, List.length_range]
  · obtain ⟨node, hnode, hinstruction⟩ :=
      exists_getElem?_of_forall₂ hrepresents.nodes (List.getElem?_eq_getElem hposition)
    rw [Array.getElem?_toList] at hnode
    simpa using PlacedAt.instruction hnode hinstruction

/-- The blocks of a document are placed one after the other if their instructions are. -/
theorem forall₂_places {written : List Document.Block} {blocks : List Block}
    (hblocks : List.Forall₂ (fun document block => block.Represents (function.Refers body)
      (fun label => (body.blocks.map Block.label).count label = 1) document) written blocks)
    (hinstructions : List.Forall₂
      (fun instruction id => function.PlacedAt body instruction (.instruction id))
      (written.flatMap Document.Block.body) (blocks.flatMap Block.sequence)) :
    List.Forall₂ (function.PlacedAt body)
      (written.flatMap fun block => block.body ++ [block.terminator])
      (blocks.flatMap Block.places) := by
  induction hblocks with
  | nil => exact .nil
  | @cons document block written blocks hblock _ ih =>
      -- A block and its counterpart are equally long, so the positions split where the blocks do.
      have hown := List.forall₂_take_append _ _ _ hinstructions
      have hrest := List.forall₂_drop_append _ _ _ hinstructions
      rw [List.flatMap_cons, List.take_left' hblock.length.symm] at hown
      rw [List.flatMap_cons, List.drop_left' hblock.length.symm] at hrest
      refine List.rel_append (List.rel_append ?_ ?_) (ih hrest)
      · exact List.forall₂_map_right_iff.mpr hown
      · exact .cons (.terminator hblock) .nil

/-! ## Agreement -/

section Agreement

variable {store : Store Interval} (hrepresents : function.Represents body document)
  (hstore : ∀ id, (store.get? id).isSome = body.tracked id)

include hrepresents hstore

/-- The instructions with a marked entry are those that are bound. -/
theorem Represents.markedPlaces_eq {entries : List String}
    (hentries : List.Forall₂ (Place.Lists (function.printer body) store) body.places entries) :
    body.markedPlaces entries = store.toList.map fun binding => .instruction binding.1 := by
  -- What is bound is tracked, so it has a position in the arena.
  have hbound : ∀ id, store.contains id = true → id ∈ List.range body.nodes.size := by
    intro id hid
    rw [Store.contains, hstore, ← Body.mem_trackedIds] at hid
    exact List.mem_of_mem_filter hid
  rw [Body.markedPlaces, map_fst_filter_marked hentries, Body.places, filter_places,
    hrepresents.sequences, Store.filter_contains List.pairwise_lt_range hbound, List.map_map]
  rfl

end Agreement

/-- After its header, the listing of a checked function has one entry for each instruction of the
document, in the order of the document and with the terminator of a block last, and the count is
their number. When a run comes to an end, the marked entries are those of the instructions that it
leaves an interval for, and after its header the report has one line for each of them, in the same
order and with the same text before the interval. -/
theorem listings_agree_with_ranges {fuel : Nat} {options : Options} {ranges : Ranges}
    (hfunction : Function.ofDocument document = .ok function) (hbody : function.body = some body)
    (hranges : function.ranges? fuel options = some (.ok ranges)) :
    ∃ entries lines, function.ListingsAgree body document ranges entries lines := by
  have hrepresents := represents_of_body hfunction hbody
  have hclosed := closed_of_ofDocument hfunction hbody
  obtain ⟨final, hreach, _, hfinal⟩ := exists_final_of_ranges? hbody hranges
  -- A run starts with the tracked positions bound and keeps them.
  have hstore : ∀ id, (ranges.store.get? id).isSome = body.tracked id := by
    rw [hfinal]
    exact (hreach.consistent (Body.consistent_initial body options)).isSome_get?
  obtain ⟨listing, hlisting⟩ := exists_instructionListing hclosed hbody
  obtain ⟨entries, hentries, hlisting⟩ := Outcome.bind_eq_ok_iff.mp hlisting
  obtain ⟨report, hreport⟩ := exists_report hclosed hbody hranges
  obtain ⟨lines, hlines, hreport⟩ := Outcome.bind_eq_ok_iff.mp hreport
  have hlists := forall₂_lists_of_instructionEntries hstore hbody hentries
  have hmarked := hrepresents.markedPlaces_eq hstore hlists
  refine ⟨entries, lines, ?_, hlists, ?_, ?_, hmarked, ?_, ?_⟩
  · exact forall₂_places hrepresents.blocks hrepresents.forall₂_instructions
  · unfold instructionListing
    rw [hentries]
    rfl
  · have hcount : function.count = entries.length := by
      rw [← hlists.length_eq, Body.places, length_places, hrepresents.sequences,
        List.length_range, count, hbody]
      rfl
    rw [countListing, hcount]
  · rw [hmarked]
    rw [reportLines, hbody] at hlines
    exact forall₂_reports_of_mapM hlines
  · rw [Function.report, hlines]
    rfl

open Document in
/-- A loop that converts its counter: `i = phi [0], [next]`, `wide = zext i` and `next = add i, 1`.
The conversion is not tracked. -/
def convertingLoop : Document.Function :=
  let ty : TypeExpr := .int 32
  let number (value : String) : Operand := .constant ⟨ty, .int value⟩
  { name := "convert"
    params := []
    ret := .void
    blocks :=
      [⟨0, none, [], ⟨.void, 0, none, .goto 1⟩⟩,
        ⟨1, none,
          [⟨ty, 1, some "i", .phi [⟨number "0", 0⟩, ⟨.instruction ty 3, 1⟩]⟩,
            ⟨.int 64, 2, some "wide", .cast "zext" (.instruction ty 1)⟩,
            ⟨ty, 3, some "next", .binary "add" (.instruction ty 1) (number "1")⟩],
          ⟨.void, 4, none, .goto 1⟩⟩] }

/-- The checked body of the loop. -/
def convertingBody : Body :=
  { blocks := [⟨0, none, [], .goto 1⟩, ⟨1, none, [0, 1, 2], .goto 1⟩]
    nodes :=
      #[⟨1, some "i", .int 32,
          .phi [(.constant (.int 32 0) (.int 32), 0), (.register 2 (.int 32), 1)]⟩,
        ⟨2, some "wide", .int 64, .cast .zext (.register 0 (.int 32))⟩,
        ⟨3, some "next", .int 32,
          .binary .add (.register 0 (.int 32)) (.constant (.int 32 1) (.int 32))⟩]
    uses := ⟨#[[2, 1], [], [0]]⟩ }

/-- The checked loop. -/
def convertingFunction : Function := ⟨"convert", [], .void, some convertingBody⟩

/-- The ranges of the loop with the default options. -/
def convertingRanges : Ranges :=
  ⟨⟨[(0, ⟨.finite 0, .posInf⟩), (2, ⟨.finite 1, .posInf⟩)], by decide⟩, 9, []⟩

/-- The listing of the loop has five entries. The phi node and the sum are marked and reported. -/
theorem convertingLoop_marks_phi_and_sum :
    Function.ofDocument convertingLoop = .ok convertingFunction ∧
      convertingFunction.body = some convertingBody ∧
      convertingFunction.ranges? 20 .default = some (.ok convertingRanges) ∧
      (∃ entries lines, convertingFunction.ListingsAgree convertingBody convertingLoop
        convertingRanges entries lines) ∧
      convertingFunction.instructionListing = .ok
        ("Supported instructions in function: convert\n" ++
          "   br label %bb1 \x7bkind = br\x7d\n" ++
          "-->%i = phi i32 [ 0, %bb0 ], [ %next, %bb1 ]\n" ++
          "   %wide = zext i32 %i to i64 \x7bkind = zext\x7d\n" ++
          "-->%next = add i32 %i, 1\n" ++
          "   br label %bb1 \x7bkind = br\x7d\n") ∧
      convertingFunction.report convertingRanges = .ok
        ("*** interval range analysis for function convert ***\n" ++
          "%i = phi i32 [ 0, %bb0 ], [ %next, %bb1 ] = [0,+inf]\n" ++
          "%next = add i32 %i, 1 = [1,+inf]\n") := by
  have hdocument : Function.ofDocument convertingLoop = .ok convertingFunction := rfl
  have hranges : convertingFunction.ranges? 20 .default = some (.ok convertingRanges) := rfl
  exact ⟨hdocument, rfl, hranges, listings_agree_with_ranges hdocument rfl hranges,
    by decide +kernel, by decide +kernel⟩

end Function

end ValueRange
