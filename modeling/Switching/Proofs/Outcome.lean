/-! # Outcomes that may be faults

A computation in steps succeeds when its steps do.
-/

namespace Switching

variable {ε α β γ : Type}

theorem map_eq_ok_iff {f : α → β} {outcome : Except ε α} {b : β} :
    outcome.map f = .ok b ↔ ∃ a, outcome = .ok a ∧ f a = b := by
  cases outcome <;> simp [Except.map]

theorem map_eq_error_iff {f : α → β} {outcome : Except ε α} {fault : ε} :
    outcome.map f = .error fault ↔ outcome = .error fault := by
  cases outcome <;> simp [Except.map]

theorem bind_eq_ok_iff {f : α → Except ε β} {outcome : Except ε α} {b : β} :
    outcome >>= f = .ok b ↔ ∃ a, outcome = .ok a ∧ f a = .ok b := by
  cases outcome <;> simp [bind, Except.bind]

theorem bind_eq_error_iff {f : α → Except ε β} {outcome : Except ε α} {fault : ε} :
    outcome >>= f = .error fault ↔
      outcome = .error fault ∨ ∃ a, outcome = .ok a ∧ f a = .error fault := by
  cases outcome <;> simp [bind, Except.bind]

theorem map_map (f : α → β) (g : β → γ) (outcome : Except ε α) :
    (outcome.map f).map g = outcome.map fun a => g (f a) := by
  cases outcome <;> rfl

theorem mapM_eq_ok_iff {f : α → Except ε β} {items : List α} {results : List β} :
    items.mapM f = .ok results ↔ items.map f = results.map .ok := by
  induction items generalizing results with
  | nil =>
    cases results with
    | nil => exact iff_of_true rfl rfl
    | cons b results => exact iff_of_false nofun nofun
  | cons a items ih =>
    rw [List.mapM_cons, bind_eq_ok_iff, List.map_cons]
    constructor
    · rintro ⟨b, first, later⟩
      obtain ⟨others, rest, same⟩ := bind_eq_ok_iff.mp later
      cases same
      rw [List.map_cons, first, ih.mp rest]
    · intro same
      cases results with
      | nil => cases same
      | cons b results =>
        obtain ⟨first, rest⟩ := List.cons.inj same
        exact ⟨b, first, bind_eq_ok_iff.mpr ⟨results, ih.mpr rest, rfl⟩⟩

/-- A computation in steps ends with the first fault of a step. -/
theorem mapM_eq_error {f : α → Except ε β} {before after : List α} {a : α} {fault : ε}
    (earlier : ∀ b ∈ before, ∃ result, f b = .ok result) (fails : f a = .error fault) :
    (before ++ a :: after).mapM f = .error fault := by
  induction before with
  | nil =>
    rw [List.nil_append, List.mapM_cons, fails]
    rfl
  | cons b before ih =>
    obtain ⟨result, step⟩ := earlier b List.mem_cons_self
    rw [List.cons_append, List.mapM_cons, step,
      ih fun c member => earlier c (List.mem_cons_of_mem b member)]
    rfl

theorem mapM_eq_some {f : α → Option β} {g : α → β} {items : List α}
    (each : ∀ a ∈ items, f a = some (g a)) : items.mapM f = some (items.map g) := by
  induction items with
  | nil => rfl
  | cons a items ih =>
    rw [List.mapM_cons, each a List.mem_cons_self,
      ih fun b member => each b (List.mem_cons_of_mem a member)]
    rfl

/-- There is no result if the first step has none. -/
theorem mapM_eq_none {f : α → Option β} {a : α} {items : List α} (fails : f a = none) :
    (a :: items).mapM f = none := by
  rw [List.mapM_cons, fails]
  rfl

end Switching
