import Switching.Proofs.Expression.Names
import Switching.Proofs.Minimized
import Switching.Proofs.Session.Minimization

/-! # Sessions over other variables

When the variables of a session are changed, the cell at an index is the old cell at the index of the
same assignment (`cell?_withVariables`). For the function of an expression this agrees with evaluating
the expression over the new variables (`cell?_withVariables_ofExpression`).
-/

namespace Switching.Session

variable {s next : Session} {vars : Variables} {limits : Limits} {text : String} {index : Nat}

/-- The old index is spelled by the values that the old variables have in the new assignment. -/
theorem sourceIndex_eq (lettered : s.vars.Lettered) (vars : Variables) (index : Nat) :
    s.sourceIndex vars index =
      Minterm.value
        (s.vars.names.map fun name => ((Assignment.ofIndex vars index).get? name).getD false) := by
  refine Minterm.ofBits_eq ?_
  rw [List.length_map]
  exact Nat.le_of_lt lettered.narrow

theorem sourceIndex_lt (s : Session) (vars : Variables) (index : Nat) :
    s.sourceIndex vars index < 2 ^ s.vars.size :=
  (Minterm.ofBits_lt _).trans_eq (by rw [List.length_map, Variables.size])

/-- The cell that is read when the variables are changed is there. -/
theorem exists_cell?_sourceIndex (sized : s.Sized) (vars : Variables) (index : Nat) :
    ∃ value, s.cell? (s.sourceIndex vars index) = some value := by
  have small := sourceIndex_lt s vars index
  rw [← sized.length_cells] at small
  exact ⟨_, List.getElem?_eq_getElem small⟩

theorem cell?_withVariables (sized : s.Sized) (changed : s.withVariables vars = .ok next)
    (inside : index < 2 ^ vars.size) : next.cell? index = s.cell? (s.sourceIndex vars index) := by
  obtain ⟨_, rfl⟩ := withVariables_eq_ok_iff.mp changed
  obtain ⟨value, listed⟩ := exists_cell?_sourceIndex sized vars index
  rw [cell?, List.getElem?_map, List.getElem?_range inside, Option.map_some, listed, Option.getD_some]

/-! ## Functions of expressions -/

theorem limits_ofExpression (loaded : ofExpression text limits = .ok s) : s.limits = limits := by
  obtain ⟨e, _, _, table, _, rfl⟩ := ofExpression_eq_ok_iff.mp loaded
  rfl

/-- The cells of an expression are its values. -/
theorem cell?_ofExpression (loaded : ofExpression text limits = .ok s) :
    ∃ e, Expression.parse text = .ok e ∧ s.vars = e.vars ∧ ∀ index < 2 ^ e.vars.size, ∃ value,
      e.eval (.ofIndex e.vars index) = .ok value ∧ s.cell? index = some (.ofBool value) := by
  obtain ⟨e, parsed, _, table, built, rfl⟩ := ofExpression_eq_ok_iff.mp loaded
  refine ⟨e, parsed, rfl, fun index inside => ?_⟩
  obtain ⟨value, listed, evaluated⟩ := TruthTable.outputs_build built inside
  refine ⟨value, evaluated, ?_⟩
  rw [cell?, List.getElem?_map, listed, Option.map_some]

/-- The cells of an expression over other variables are its values when the variables that are missing
there are false. -/
theorem cell?_withVariables_ofExpression (loaded : ofExpression text limits = .ok s)
    (lettered : vars.Lettered) (changed : s.withVariables vars = .ok next) :
    ∃ e, Expression.parse text = .ok e ∧ ∀ index < 2 ^ vars.size, ∃ value,
      e.eval ((Assignment.ofIndex vars index).withFalse (e.vars.names.filter (· ∉ vars.names))) =
        .ok value ∧
      next.cell? index = some (.ofBool value) := by
  obtain ⟨e, parsed, same, cells⟩ := cell?_ofExpression loaded
  have letters := Expression.lettered_vars parsed
  have old : s.vars.Lettered := same ▸ letters
  refine ⟨e, parsed, fun index inside => ?_⟩
  obtain ⟨value, evaluated, cell⟩ := cells _ (same ▸ sourceIndex_lt s vars index)
  refine ⟨value, ?_, (cell?_withVariables (sized_ofExpression loaded) changed inside).trans cell⟩
  rw [← evaluated]
  apply Expression.eval_congr
  intro name member
  rw [Assignment.get?_withFalse_missing lettered letters.2 member, sourceIndex_eq old, same,
    Assignment.get?_ofIndex_value letters _ member]

/-- Changing the variables of the function of an expression agrees with evaluating the expression over
the new variables, whatever their order, with the variables that are missing there being false. If none
is missing, the minterms are those of the table of the expression over the new variables. -/
theorem withVariables_eq_evaluation (loaded : ofExpression text .standard = .ok s)
    (lettered : vars.Lettered) (changed : s.withVariables vars = .ok next) :
    ∃ e, Expression.parse text = .ok e ∧
      (∀ index < 2 ^ vars.size, ∃ value,
        e.eval ((Assignment.ofIndex vars index).withFalse (e.vars.names.filter (· ∉ vars.names))) =
          .ok value ∧
        next.cell? index = some (.ofBool value)) ∧
      ((∀ name ∈ e.vars.names, name ∈ vars.names) →
        ∃ table, TruthTable.build vars (some e) = .ok table ∧
          next.terms.minterms = table.minterms) := by
  obtain ⟨e, parsed, values⟩ := cell?_withVariables_ofExpression loaded lettered changed
  refine ⟨e, parsed, values, fun all => ?_⟩
  have complete : e.vars.names.filter (· ∉ vars.names) = [] :=
    List.filter_eq_nil_iff.mpr fun name member => by simp [all name member]
  have outputs : ∀ index < 2 ^ vars.size, ∃ value,
      TruthTable.outputAt vars (some e) index = .ok value ∧
      next.cell? index = some (.ofBool value) := by
    rw [complete] at values
    exact values
  have small : vars.size ≤ TruthTable.maxVariables := by
    have fits := (withVariables_eq_ok_iff.mp changed).1
    rwa [limits_ofExpression loaded] at fits
  obtain ⟨table, built⟩ := TruthTable.exists_build small fun index inside =>
    (outputs index inside).imp fun _ both => both.1
  refine ⟨table, built, IndexSet.ext fun index => ?_⟩
  rw [TruthTable.mem_minterms_build built]
  constructor
  · intro member
    have one := mem_indicesOf.mp member
    have inside := (sized_withVariables changed).lt_of_cell? one
    rw [vars_withVariables changed] at inside
    obtain ⟨value, evaluated, cell⟩ := outputs index inside
    obtain rfl := Cell.ofBool_eq_one_iff.mp (Option.some.inj (cell.symm.trans one))
    exact ⟨inside, evaluated⟩
  · rintro ⟨inside, evaluated⟩
    obtain ⟨value, same, cell⟩ := outputs index inside
    obtain rfl := Except.ok.inj (same.symm.trans evaluated)
    exact mem_indicesOf.mpr cell

theorem withVariables_eq_evaluation_reordered :
    let s : Session := ⟨⟨['A', 'B']⟩, .sop, [.zero, .one, .zero, .zero], .standard⟩
    let next : Session := ⟨⟨['B', 'C', 'A']⟩, .sop,
      [.zero, .zero, .zero, .zero, .one, .zero, .one, .zero], .standard⟩
    ofExpression "A'B" .standard = .ok s ∧ next.vars.Lettered ∧ s.withVariables next.vars = .ok next ∧
    ∃ e, Expression.parse "A'B" = .ok e ∧
      (∀ index < 2 ^ next.vars.size, ∃ value,
        e.eval ((Assignment.ofIndex next.vars index).withFalse
          (e.vars.names.filter (· ∉ next.vars.names))) = .ok value ∧
        next.cell? index = some (.ofBool value)) ∧
      ((∀ name ∈ e.vars.names, name ∈ next.vars.names) →
        ∃ table, TruthTable.build next.vars (some e) = .ok table ∧
          next.terms.minterms = table.minterms) := by
  intro s next
  have loaded : ofExpression "A'B" .standard = .ok s := rfl
  have changed : s.withVariables next.vars = .ok next := rfl
  have lettered : next.vars.Lettered := by decide
  exact ⟨loaded, lettered, changed, withVariables_eq_evaluation loaded lettered changed⟩

end Switching.Session
