import Switching.Proofs.Session.Reindexing

/-! # Runs of changes

What one change keeps of a session (`Shaped.apply`) and what a whole run keeps of it (`Shaped.run`):
its number of cells, its limits, and the form that was chosen last. So the indices below the number of
assignments are those with a cell throughout a run, and no operation reads a cell that is not there
(`shape_of_run`). The ends of runs are the sessions that can be reached (`reachable_iff_exists_run`).
-/

namespace Switching

variable {change : Edit} {changes : List Edit} {limits : Limits} {form : Form}
variable {start s next : Session} {index : Nat} {value : Cell} {fault : Fault}

theorem Edit.lastForm?_cons (change : Edit) (changes : List Edit) :
    lastForm? (change :: changes) = (lastForm? changes).or change.form? := by
  rw [lastForm?, lastForm?, List.filterMap_cons]
  cases change.form? with
  | none => exact Option.or_none.symm
  | some form =>
    rw [List.getLast?_cons]
    cases (changes.filterMap form?).getLast? <;> rfl

namespace Session

/-! ## What a run keeps -/

/-- A session of the right size under given limits, with a given form. -/
structure Shaped (limits : Limits) (form : Form) (s : Session) : Prop where
  sized : s.Sized
  limits_eq : s.limits = limits
  form_eq : s.form = form

theorem Begins.shaped (begins : Begins limits s) : s.Shaped limits .sop := by
  cases begins with
  | blank success =>
    refine ⟨sized_blank success, ?_, ?_⟩ <;> obtain ⟨_, rfl⟩ := blank_eq_ok_iff.mp success <;> rfl
  | ofExpression success =>
    refine ⟨sized_ofExpression success, limits_ofExpression success, ?_⟩
    obtain ⟨_, _, _, _, _, rfl⟩ := ofExpression_eq_ok_iff.mp success
    rfl
  | ofTerms success =>
    refine ⟨sized_ofTerms success, ?_, ?_⟩ <;> obtain ⟨_, _, rfl⟩ := ofTerms_eq_ok_iff.mp success <;> rfl

/-- A change keeps size and limits, and it keeps the form unless it chooses another one. -/
theorem Shaped.apply (shaped : s.Shaped limits form) (success : s.apply change = .ok next) :
    next.Shaped limits (change.form?.getD form) := by
  refine ⟨shaped.sized.apply success, ?_, ?_⟩
  · rw [← shaped.limits_eq]
    obtain ⟨index, value, _, rfl⟩ | ⟨other, _, rfl⟩ | ⟨vars, _, changed⟩ := apply_cases success
    · rfl
    · rfl
    · obtain ⟨_, rfl⟩ := withVariables_eq_ok_iff.mp changed
      rfl
  · rw [← shaped.form_eq]
    obtain ⟨index, value, kept, rfl⟩ | ⟨other, rfl, rfl⟩ | ⟨vars, rfl, changed⟩ := apply_cases success
    · rw [kept]
      rfl
    · rfl
    · obtain ⟨_, rfl⟩ := withVariables_eq_ok_iff.mp changed
      rfl

theorem run_cons_eq_ok_iff : s.run (change :: changes) = .ok next ↔
    ∃ mid, s.apply change = .ok mid ∧ mid.run changes = .ok next := by
  rw [run, List.foldlM_cons, bind_eq_ok_iff]
  rfl

theorem Shaped.run (shaped : s.Shaped limits form) (success : s.run changes = .ok next) :
    next.Shaped limits ((Edit.lastForm? changes).getD form) := by
  induction changes generalizing s form with
  | nil =>
    cases success
    exact shaped
  | cons change changes ih =>
    obtain ⟨mid, changed, success⟩ := run_cons_eq_ok_iff.mp success
    have kept := ih (shaped.apply changed) success
    rwa [← Option.getD_or, ← Edit.lastForm?_cons] at kept

/-! ## The sessions that are reached -/

theorem Begins.reachable (begins : Begins limits s) : s.Reachable := by
  cases begins with
  | blank success => exact .blank success
  | ofExpression success => exact .ofExpression success
  | ofTerms success => exact .ofTerms success

theorem Reachable.run (reachable : s.Reachable) (success : s.run changes = .ok next) :
    next.Reachable := by
  induction changes generalizing s with
  | nil =>
    cases success
    exact reachable
  | cons change changes ih =>
    obtain ⟨mid, changed, success⟩ := run_cons_eq_ok_iff.mp success
    exact ih (.edit reachable changed) success

/-- The sessions that can be reached are the ends of runs. -/
theorem reachable_iff_exists_run : s.Reachable ↔
    ∃ limits start changes, Begins limits start ∧ start.run changes = .ok s := by
  constructor
  · intro reachable
    induction reachable with
    | blank success => exact ⟨_, _, [], .blank success, rfl⟩
    | ofExpression success => exact ⟨_, _, [], .ofExpression success, rfl⟩
    | ofTerms success => exact ⟨_, _, [], .ofTerms success, rfl⟩
    | @edit s next change _ changed ih =>
      obtain ⟨limits, start, changes, begins, success⟩ := ih
      refine ⟨limits, start, changes ++ [change], begins, ?_⟩
      rw [run, List.foldlM_append, bind_eq_ok_iff]
      exact ⟨s, success, run_cons_eq_ok_iff.mpr ⟨next, changed, rfl⟩⟩
  · rintro ⟨limits, start, changes, begins, success⟩
    exact begins.reachable.run success

/-! ## The cells of a session of the right size -/

theorem Sized.isSome_cell?_iff (sized : s.Sized) (index : Nat) :
    (s.cell? index).isSome ↔ index < 2 ^ s.vars.size := by
  rw [cell?, isSome_getElem?, sized.length_cells]

theorem Sized.toggle_eq_error_iff (sized : s.Sized) :
    s.toggle index = .error fault ↔ 2 ^ s.vars.size ≤ index ∧ fault = .noSuchCell index :=
  sized.length_cells ▸ Session.toggle_eq_error_iff

theorem Sized.withCell_eq_error_iff (sized : s.Sized) :
    s.withCell index value = .error fault ↔ 2 ^ s.vars.size ≤ index ∧ fault = .noSuchCell index :=
  sized.length_cells ▸ Session.withCell_eq_error_iff

/-- At the end of every run a session has one cell for each assignment of its variables, no more
variables than the limits allow that it began with, these limits, and the form that was chosen last. So
exactly the indices of assignments have a cell, exactly the others are refused when a cell is written,
and each cell over other variables is one that was there. -/
theorem shape_of_run (begins : Begins limits start) (success : start.run changes = .ok s) :
    s.cells.length = 2 ^ s.vars.size ∧ s.vars.size ≤ limits.table ∧
    s.limits = start.limits ∧ start.limits = limits ∧
    s.form = (Edit.lastForm? changes).getD .sop ∧
    (∀ index, (s.cell? index).isSome ↔ index < 2 ^ s.vars.size) ∧
    (∀ index fault, s.toggle index = .error fault ↔
      2 ^ s.vars.size ≤ index ∧ fault = .noSuchCell index) ∧
    (∀ index value fault, s.withCell index value = .error fault ↔
      2 ^ s.vars.size ≤ index ∧ fault = .noSuchCell index) ∧
    ∀ vars index, index < 2 ^ vars.size → ∃ value,
      s.cell? (s.sourceIndex vars index) = some value ∧
      ∀ next, s.withVariables vars = .ok next → next.cell? index = some value := by
  have first := begins.shaped
  have last := first.run success
  have sized := last.sized
  refine ⟨sized.length_cells, last.limits_eq ▸ sized.size_le, last.limits_eq.trans first.limits_eq.symm,
    first.limits_eq, last.form_eq, sized.isSome_cell?_iff, fun _ _ => sized.toggle_eq_error_iff,
    fun _ _ _ => sized.withCell_eq_error_iff, fun vars index inside => ?_⟩
  obtain ⟨value, found⟩ := exists_cell?_sourceIndex sized vars index
  exact ⟨value, found, fun next changed => (cell?_withVariables sized changed inside).trans found⟩

theorem shape_of_run_resized :
    let limits : Limits := ⟨3, 2, 3⟩
    let start : Session := ⟨⟨['A', 'B']⟩, .sop, [.zero, .one, .dontCare, .zero], limits⟩
    let changes : List Edit := [.setForm .pos, .toggleCell 1 0, .setVariables ⟨['C', 'B', 'A']⟩,
      .toggle 6, .setForm .sop, .setCell 7 .dontCare, .setForm .pos]
    let s : Session := ⟨⟨['C', 'B', 'A']⟩, .pos,
      [.zero, .zero, .one, .zero, .zero, .zero, .dontCare, .dontCare], limits⟩
    Begins limits start ∧ start.run changes = .ok s ∧
    s.cells.length = 2 ^ s.vars.size ∧ s.vars.size ≤ limits.table ∧
    s.limits = start.limits ∧ start.limits = limits ∧
    s.form = (Edit.lastForm? changes).getD .sop ∧
    (∀ index, (s.cell? index).isSome ↔ index < 2 ^ s.vars.size) ∧
    (∀ index fault, s.toggle index = .error fault ↔
      2 ^ s.vars.size ≤ index ∧ fault = .noSuchCell index) ∧
    (∀ index value fault, s.withCell index value = .error fault ↔
      2 ^ s.vars.size ≤ index ∧ fault = .noSuchCell index) ∧
    ∀ vars index, index < 2 ^ vars.size → ∃ value,
      s.cell? (s.sourceIndex vars index) = some value ∧
      ∀ next, s.withVariables vars = .ok next → next.cell? index = some value := by
  intro limits start changes s
  have loaded : ofTerms start.vars ⟨.ofList [1], .ofList [2]⟩ limits = .ok start := rfl
  have success : start.run changes = .ok s := by decide +kernel
  exact ⟨.ofTerms loaded, success, shape_of_run (.ofTerms loaded) success⟩

end Session

end Switching
