/-!
# Stores

A node is identified by its position in the arena of its function, a natural number. A store maps
node identifiers to values. Its entries are kept in ascending order of the identifier, so two stores
with the same bindings are equal and a listing needs no sorting.
-/

namespace ValueRange

/-- A finite map from node identifiers, listed in ascending order. -/
structure Store (α : Type) where
  /-- The bindings. -/
  entries : List (Nat × α)
  /-- Every identifier is bound once, and the bindings are sorted. -/
  ascending : entries.Pairwise fun left right => left.1 < right.1

namespace Store

variable {α : Type}

/-- Bind an identifier in a sorted list of bindings. -/
def insertEntry (id : Nat) (value : α) : List (Nat × α) → List (Nat × α)
  | [] => [(id, value)]
  | (other, kept) :: rest =>
    if id < other then (id, value) :: (other, kept) :: rest
    else if id = other then (id, value) :: rest
    else (other, kept) :: insertEntry id value rest

/-- The value of an identifier in a list of bindings. -/
def findEntry (id : Nat) : List (Nat × α) → Option α
  | [] => none
  | (other, value) :: rest => if id = other then some value else findEntry id rest

theorem fst_of_mem_insertEntry {id : Nat} {value : α} {entries : List (Nat × α)}
    {entry : Nat × α} (hentry : entry ∈ insertEntry id value entries) :
    entry.1 = id ∨ entry ∈ entries := by
  induction entries with
  | nil => simp_all [insertEntry]
  | cons head rest ih =>
    unfold insertEntry at hentry
    split at hentry
    · simp only [List.mem_cons] at hentry ⊢
      rcases hentry with rfl | hentry
      · exact Or.inl rfl
      · exact Or.inr hentry
    · split at hentry
      · simp only [List.mem_cons] at hentry ⊢
        rcases hentry with rfl | hentry
        · exact Or.inl rfl
        · exact Or.inr (Or.inr hentry)
      · simp only [List.mem_cons] at hentry ⊢
        rcases hentry with rfl | hentry
        · exact Or.inr (Or.inl rfl)
        · exact (ih hentry).imp_right Or.inr

theorem pairwise_insertEntry (id : Nat) (value : α) {entries : List (Nat × α)}
    (hentries : entries.Pairwise fun left right => left.1 < right.1) :
    (insertEntry id value entries).Pairwise fun left right => left.1 < right.1 := by
  induction entries with
  | nil => simp [insertEntry]
  | cons head rest ih =>
    obtain ⟨other, kept⟩ := head
    obtain ⟨hhead, hrest⟩ := List.pairwise_cons.mp hentries
    unfold insertEntry
    split
    · rename_i hlt
      refine List.pairwise_cons.mpr ⟨fun entry hentry => ?_, hentries⟩
      rcases List.mem_cons.mp hentry with rfl | hentry
      · exact hlt
      · exact Nat.lt_trans hlt (hhead entry hentry)
    · split
      · rename_i heq
        exact List.pairwise_cons.mpr ⟨fun entry hentry => heq ▸ hhead entry hentry, hrest⟩
      · rename_i hnlt hne
        refine List.pairwise_cons.mpr ⟨fun entry hentry => ?_, ih hrest⟩
        rcases fst_of_mem_insertEntry hentry with hid | hentry
        · show other < entry.1
          omega
        · exact hhead entry hentry

/-- The store without bindings. -/
def empty : Store α := ⟨[], List.Pairwise.nil⟩

instance : EmptyCollection (Store α) := ⟨empty⟩

instance : Inhabited (Store α) := ⟨empty⟩

/-- Bind an identifier, replacing its value if it has one. -/
def insert (store : Store α) (id : Nat) (value : α) : Store α :=
  ⟨insertEntry id value store.entries, pairwise_insertEntry id value store.ascending⟩

/-- The value of an identifier. -/
def get? (store : Store α) (id : Nat) : Option α := findEntry id store.entries

/-- Whether an identifier is bound. -/
def contains (store : Store α) (id : Nat) : Bool := (store.get? id).isSome

/-- Number of bindings. -/
def size (store : Store α) : Nat := store.entries.length

/-- Whether there is no binding. -/
def isEmpty (store : Store α) : Bool := store.entries.isEmpty

/-- The bindings in ascending order of the identifier. -/
def toList (store : Store α) : List (Nat × α) := store.entries

/-- The values in ascending order of the identifier. -/
def values (store : Store α) : List α := store.entries.map Prod.snd

theorem findEntry_insertEntry (id other : Nat) (value : α) (entries : List (Nat × α)) :
    findEntry other (insertEntry id value entries) =
      if other = id then some value else findEntry other entries := by
  induction entries with
  | nil => rfl
  | cons head rest ih =>
    obtain ⟨first, kept⟩ := head
    unfold insertEntry
    split
    · rfl
    · split
      · rename_i hfirst
        simp only [findEntry, ← hfirst]
        split <;> rfl
      · rename_i hne
        simp only [findEntry, ih]
        by_cases hother : other = id
        · have hfirst : other ≠ first := fun heq => hne (hother ▸ heq)
          rw [if_neg hfirst]
          simp [hother]
        · simp [hother]

@[simp]
theorem get?_empty (id : Nat) : (empty : Store α).get? id = none := rfl

@[simp]
theorem get?_insert (store : Store α) (id other : Nat) (value : α) :
    (store.insert id value).get? other = if other = id then some value else store.get? other :=
  findEntry_insertEntry id other value store.entries

theorem mem_entries_iff {entries : List (Nat × α)}
    (hentries : entries.Pairwise fun left right => left.1 < right.1) {id : Nat} {value : α} :
    (id, value) ∈ entries ↔ findEntry id entries = some value := by
  induction entries with
  | nil => simp [findEntry]
  | cons first rest ih =>
      obtain ⟨other, kept⟩ := first
      obtain ⟨hbefore, hrest⟩ := List.pairwise_cons.mp hentries
      rw [List.mem_cons, Prod.mk.injEq, findEntry]
      by_cases hid : id = other
      · subst hid
        have hfresh : (id, value) ∉ rest := fun hmem => Nat.lt_irrefl id (hbefore (id, value) hmem)
        simp [hfresh, eq_comm]
      · simp [hid, ih hrest]

/-- The bindings are the identifiers with their values. -/
theorem mem_toList_iff {store : Store α} {id : Nat} {value : α} :
    (id, value) ∈ store.toList ↔ store.get? id = some value :=
  mem_entries_iff store.ascending

theorem ext_entries {left right : Store α} (hentries : left.entries = right.entries) :
    left = right := by
  cases left
  cases right
  congr

instance [DecidableEq α] : DecidableEq (Store α) := fun left right =>
  if hentries : left.entries = right.entries then isTrue (ext_entries hentries)
  else isFalse fun heq => hentries (congrArg Store.entries heq)

end Store

end ValueRange
