import Mathlib.Data.List.Forall2
import ValueRange.Fault

/-!
# Outcomes of checks

A check that is made of several ones succeeds exactly if each of them does. Success of a whole check
is taken apart with these equivalences, one check at a time. Two checks that need not fail for the
same reason are compared with their faults forgotten.
-/

namespace ValueRange

namespace Outcome

variable {α β : Type}

theorem bind_eq_ok_iff {first : Except Fault α} {next : α → Except Fault β} {result : β} :
    first >>= next = .ok result ↔ ∃ value, first = .ok value ∧ next value = .ok result := by
  cases first with
  | error fault => simp [bind, Except.bind]
  | ok value => simp [bind, Except.bind]

theorem pure_eq_ok_iff {value result : α} :
    (pure value : Except Fault α) = .ok result ↔ value = result := by
  simp [pure, Except.pure]

theorem throw_ne_ok {fault : Fault} {result : α} :
    (throw fault : Except Fault α) ≠ .ok result := by
  simp [throw, throwThe, MonadExceptOf.throw]

theorem not_exists_throw_eq_ok {fault : Fault} :
    ¬ ∃ result, (throw fault : Except Fault α) = .ok result := by
  rintro ⟨result, hresult⟩
  exact throw_ne_ok hresult

theorem guard_eq_ok_iff {offends : Prop} [Decidable offends] {fault : Fault} {next : Except Fault α}
    {result : α} :
    (if offends then throw fault else next) = .ok result ↔ ¬ offends ∧ next = .ok result := by
  by_cases hoffends : offends
  · simp [hoffends, throw_ne_ok]
  · simp [hoffends]

theorem exists_bind_eq_ok_iff {first : Except Fault α} {next : α → Except Fault β} :
    (∃ result, first >>= next = .ok result) ↔
      ∃ value, first = .ok value ∧ ∃ result, next value = .ok result := by
  simp only [bind_eq_ok_iff]
  constructor
  · rintro ⟨result, value, hvalue, hresult⟩
    exact ⟨value, hvalue, result, hresult⟩
  · rintro ⟨value, hvalue, result, hresult⟩
    exact ⟨result, value, hvalue, hresult⟩

theorem exists_bind_pure_iff {first : Except Fault α} {value : α → β} :
    (∃ result, (first >>= fun item => pure (value item)) = .ok result) ↔
      ∃ item, first = .ok item := by
  simp only [exists_bind_eq_ok_iff, pure_eq_ok_iff, exists_eq', and_true]

theorem exists_guard_eq_ok_iff {offends : Prop} [Decidable offends] {fault : Fault}
    {next : Except Fault α} :
    (∃ result, (if offends then throw fault else next) = .ok result) ↔
      ¬ offends ∧ ∃ result, next = .ok result := by
  simp only [guard_eq_ok_iff, exists_and_left]

/-- Checking the members of a list one after the other. -/
theorem mapM_eq_ok_iff {check : α → Except Fault β} {items : List α} {results : List β} :
    items.mapM check = .ok results ↔
      List.Forall₂ (fun item result => check item = .ok result) items results := by
  induction items generalizing results with
  | nil =>
      rw [List.mapM_nil, pure_eq_ok_iff, eq_comm]
      exact List.forall₂_nil_left_iff.symm
  | cons item items ih =>
      rw [List.mapM_cons, List.forall₂_cons_left_iff, bind_eq_ok_iff]
      simp only [bind_eq_ok_iff, pure_eq_ok_iff, ih]
      constructor
      · rintro ⟨value, hvalue, values, hvalues, rfl⟩
        exact ⟨value, values, hvalue, hvalues, rfl⟩
      · rintro ⟨value, values, hvalue, hvalues, rfl⟩
        exact ⟨value, hvalue, values, hvalues, rfl⟩

theorem exists_mapM_eq_ok_iff {check : α → Except Fault β} {items : List α} :
    (∃ results, items.mapM check = .ok results) ↔
      ∀ item ∈ items, ∃ result, check item = .ok result := by
  induction items with
  | nil => simp [pure, Except.pure]
  | cons item items ih =>
      rw [List.mapM_cons, exists_bind_eq_ok_iff, List.forall_mem_cons, ← ih]
      simp only [exists_bind_eq_ok_iff, pure_eq_ok_iff, exists_eq', and_true]
      exact exists_and_right

/-- Checking what may be missing. -/
theorem option_mapM_eq_ok_iff {check : α → Except Fault β} {item? : Option α} {result? : Option β} :
    item?.mapM check = .ok result? ↔
      List.Forall₂ (fun item result => check item = .ok result) item?.toList result?.toList := by
  cases item? with
  | none =>
      rw [Option.mapM_none, pure_eq_ok_iff, eq_comm, Option.toList_none, List.forall₂_nil_left_iff,
        Option.toList_eq_nil_iff]
  | some item =>
      rw [Option.mapM_some, map_eq_pure_bind, bind_eq_ok_iff]
      simp only [pure_eq_ok_iff, Option.toList_some, List.forall₂_cons_left_iff,
        List.forall₂_nil_left_iff]
      constructor
      · rintro ⟨result, hresult, rfl⟩
        exact ⟨result, [], hresult, rfl, rfl⟩
      · rintro ⟨result, _, hresult, rfl, hlist⟩
        exact ⟨result, hresult, (Option.toList_eq_singleton_iff.mp hlist).symm⟩

theorem exists_option_mapM_eq_ok_iff {check : α → Except Fault β} {item? : Option α} :
    (∃ result?, item?.mapM check = .ok result?) ↔
      ∀ item ∈ item?, ∃ result, check item = .ok result := by
  cases item? with
  | none => simp [pure, Except.pure]
  | some item =>
      simp only [Option.mapM_some, map_eq_pure_bind, exists_bind_eq_ok_iff, pure_eq_ok_iff,
        exists_eq', and_true, Option.mem_some_iff, forall_eq']

/-- A check that says which value an item has says it for all members of a list. -/
theorem mapM_eq_ok_iff_map {check : α → Except Fault β} {valid : α → Prop} {value : α → β}
    (hcheck : ∀ item result, check item = .ok result ↔ valid item ∧ result = value item)
    {items : List α} {results : List β} :
    items.mapM check = .ok results ↔
      (∀ item ∈ items, valid item) ∧ results = items.map value := by
  induction items generalizing results with
  | nil =>
      rw [List.mapM_nil, pure_eq_ok_iff, eq_comm]
      simp
  | cons item items ih =>
      simp only [List.mapM_cons, bind_eq_ok_iff, pure_eq_ok_iff, hcheck, ih, List.forall_mem_cons,
        List.map_cons]
      constructor
      · rintro ⟨first, ⟨hfirst, rfl⟩, rest, ⟨hrest, rfl⟩, rfl⟩
        exact ⟨⟨hfirst, hrest⟩, rfl⟩
      · rintro ⟨⟨hfirst, hrest⟩, rfl⟩
        exact ⟨_, ⟨hfirst, rfl⟩, _, ⟨hrest, rfl⟩, rfl⟩

theorem filterAuxM_eq_ok_iff {check : α → Except Fault Bool} {test : α → Bool} {items : List α}
    (hcheck : ∀ item ∈ items, ∀ answer, check item = .ok answer → answer = test item)
    {kept results : List α} :
    items.filterAuxM check kept = .ok results ↔
      (∀ item ∈ items, ∃ answer, check item = .ok answer) ∧
        results = (items.filter test).reverse ++ kept := by
  induction items generalizing kept with
  | nil =>
      rw [List.filterAuxM, pure_eq_ok_iff, eq_comm]
      simp
  | cons item items ih =>
      obtain ⟨hitem, hitems⟩ := List.forall_mem_cons.mp hcheck
      rw [List.filterAuxM, bind_eq_ok_iff, List.forall_mem_cons]
      simp only [ih hitems]
      have hfilter : ∀ answer, answer = test item →
          (items.filter test).reverse ++ cond answer (item :: kept) kept =
            ((item :: items).filter test).reverse ++ kept := by
        rintro _ rfl
        cases htest : test item <;> simp [htest]
      constructor
      · rintro ⟨answer, hanswer, hrest, rfl⟩
        exact ⟨⟨⟨answer, hanswer⟩, hrest⟩, hfilter answer (hitem answer hanswer)⟩
      · rintro ⟨⟨⟨answer, hanswer⟩, hrest⟩, rfl⟩
        exact ⟨answer, hanswer, hrest, (hfilter answer (hitem answer hanswer)).symm⟩

/-- Keeping the members of a list that pass a check whose answer is known. -/
theorem filterM_eq_ok_iff {check : α → Except Fault Bool} {test : α → Bool} {items : List α}
    (hcheck : ∀ item ∈ items, ∀ answer, check item = .ok answer → answer = test item)
    {results : List α} :
    items.filterM check = .ok results ↔
      (∀ item ∈ items, ∃ answer, check item = .ok answer) ∧ results = items.filter test := by
  rw [List.filterM, bind_eq_ok_iff]
  simp only [filterAuxM_eq_ok_iff hcheck, pure_eq_ok_iff, List.append_nil]
  constructor
  · rintro ⟨_, ⟨hitems, rfl⟩, rfl⟩
    exact ⟨hitems, List.reverse_reverse _⟩
  · rintro ⟨hitems, rfl⟩
    exact ⟨_, ⟨hitems, rfl⟩, List.reverse_reverse _⟩

/-! ## Checks that succeed together -/

variable {γ δ : Type} {f : α → γ} {g : β → δ}

theorem isSome_toOption_iff {outcome : Except Fault α} :
    outcome.toOption.isSome ↔ ∃ value, outcome = .ok value := by
  cases outcome <;> simp [Except.toOption]

/-- Checks succeed together if their first parts and then the rests do. -/
theorem toOption_bind_map {first : Except Fault α} {first' : Except Fault γ}
    {next : α → Except Fault β} {next' : γ → Except Fault δ}
    (hfirst : first'.toOption = first.toOption.map f)
    (hnext : ∀ value, (next' (f value)).toOption = (next value).toOption.map g) :
    (first' >>= next').toOption = (first >>= next).toOption.map g := by
  cases first with
  | error fault =>
      cases first' with
      | error fault' => rfl
      | ok value' => cases hfirst
  | ok value =>
      cases first' with
      | error fault' => cases hfirst
      | ok value' =>
          cases hfirst
          exact hnext value

/-- Checks with the same first part succeed together if the rests do. -/
theorem toOption_bind_same {first : Except Fault α} {next : α → Except Fault β}
    {next' : α → Except Fault δ}
    (hnext : ∀ value, (next' value).toOption = (next value).toOption.map g) :
    (first >>= next').toOption = (first >>= next).toOption.map g :=
  toOption_bind_map Option.map_id'.symm hnext

/-- A choice between checks succeeds together with a choice between others if both of them do. -/
theorem toOption_ite_map {choice : Prop} [Decidable choice] {left right : Except Fault α}
    {left' right' : Except Fault γ} (hleft : left'.toOption = left.toOption.map f)
    (hright : right'.toOption = right.toOption.map f) :
    (if choice then left' else right').toOption =
      (if choice then left else right).toOption.map f := by
  split
  · exact hleft
  · exact hright

/-- Checks that succeed together on single items do so on lists. -/
theorem toOption_mapM_map {check : α → Except Fault β} {check' : γ → Except Fault δ}
    (hcheck : ∀ item, (check' (f item)).toOption = (check item).toOption.map g) (items : List α) :
    ((items.map f).mapM check').toOption = (items.mapM check).toOption.map (List.map g) := by
  induction items with
  | nil => rfl
  | cons item items ih =>
      rw [List.map_cons, List.mapM_cons, List.mapM_cons]
      exact toOption_bind_map (hcheck item) fun _ => toOption_bind_map ih fun _ => rfl

/-- Steps that succeed together do so one after the other. -/
theorem toOption_foldlM_map {step : β → α → Except Fault β} {step' : δ → γ → Except Fault δ}
    (hstep : ∀ state item, (step' (g state) (f item)).toOption = (step state item).toOption.map g)
    (items : List α) (state : β) :
    ((items.map f).foldlM step' (g state)).toOption = (items.foldlM step state).toOption.map g := by
  induction items generalizing state with
  | nil => rfl
  | cons item items ih =>
      rw [List.map_cons, List.foldlM_cons, List.foldlM_cons]
      exact toOption_bind_map (hstep state item) ih

end Outcome

end ValueRange
