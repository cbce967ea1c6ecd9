import Switching.Proofs.Session.Widening

/-! # Minimizing a minimized text

The text of a minimized function without open cells is again an expression of this function, over
those variables that are still written. Loading it gives the same function over fewer variables
(`exists_widens_of_outcome`), which is minimized to the same text (`minimize_text_fixed`).
-/

namespace Switching

open Minterm

variable {vars : Variables} {e : Expression}

namespace Expression

/-- An expression with a value at some index has no other variables than those of the index. -/
theorem names_subset_of_eval (letters : ∀ name ∈ e.vars.names, name.isUpper = true)
    (lettered : vars.Lettered) {index : Nat} {value : Bool}
    (success : e.eval (.ofIndex vars index) = .ok value) : e.vars.names ⊆ vars.names := by
  intro name member
  by_contra absent
  have assigned := isSome_get?_of_eval success member
  rw [Assignment.get?_ofIndex_of_not_mem lettered index (letters name member) absent] at assigned
  cases assigned

/-- The variables of expressions are listed in one order. -/
theorem sublist_vars {whole : Expression} (subset : e.vars.names ⊆ whole.vars.names) :
    e.vars.names.Sublist whole.vars.names := by
  have distinct : e.vars.names.Nodup := (sorted_vars e).imp ne_of_lt
  exact List.sublist_of_subperm_of_pairwise (distinct.subperm subset) (sorted_vars e)
    (sorted_vars whole)

/-- The value of an expression at an index over more variables is that at its projection. -/
theorem eval_ofIndex_project (letters : e.vars.Lettered) (lettered : vars.Lettered)
    (order : e.vars.names.Sublist vars.names) (index : Nat) :
    e.eval (.ofIndex e.vars (project (Variables.keeps e.vars vars) index)) =
      e.eval (.ofIndex vars index) := by
  refine eval_congr fun name member => ?_
  obtain ⟨position, here⟩ := List.getElem?_of_mem (order.subset member)
  rw [Variables.project_keeps letters (lettered.includes order),
    Assignment.get?_ofIndex_value letters _ member, Assignment.get?_ofIndex lettered index here,
    Option.getD_some]

end Expression

namespace Session

variable {s : Session} {text : String}

/-- The text of an expression with the values of a session, of whose variables it mentions some, is
loaded as the same function over fewer variables. -/
theorem exists_widens_of_values (sized : s.Sized) (lettered : s.vars.Lettered)
    (parsed : Expression.parse text = .ok e) (order : e.vars.names.Sublist s.vars.names)
    (fits : s.vars.size ≤ TruthTable.maxVariables)
    (values : ∀ index < 2 ^ s.vars.size, ∃ value,
      e.eval (.ofIndex s.vars index) = .ok value ∧ s.cell? index = some (.ofBool value)) :
    ∃ few, ofExpression text .standard = .ok few ∧ few.Widens (Variables.keeps e.vars s.vars) s := by
  have letters := Expression.lettered_vars parsed
  have keeps := Variables.keeps_of_includes letters.2 (lettered.includes order) lettered.narrow
  have small : e.vars.size ≤ TruthTable.maxVariables := order.length_le.trans fits
  have valued : ∀ index < 2 ^ e.vars.size, ∃ value,
      TruthTable.outputAt e.vars (some e) index = .ok value := by
    intro index inside
    rw [keeps.size_vars] at inside
    have wide := embed_lt (Variables.keeps e.vars s.vars) index
    rw [Variables.length_keeps] at wide
    obtain ⟨value, evaluated, _⟩ := values _ wide
    rw [← Expression.eval_ofIndex_project letters lettered order, project_embed inside] at evaluated
    exact ⟨value, evaluated⟩
  obtain ⟨table, built⟩ := TruthTable.exists_build small valued
  have loaded : ofExpression text .standard = .ok _ :=
    ofExpression_eq_ok_iff.mpr ⟨e, parsed, small, table, built, rfl⟩
  refine ⟨_, loaded, keeps, sized_ofExpression loaded, sized, fun index inside => ?_⟩
  have narrow := project_lt (Variables.keeps e.vars s.vars) index
  rw [Variables.length_keeps] at inside
  rw [← keeps.size_vars] at narrow
  obtain ⟨value, evaluated, cell⟩ := values index inside
  obtain ⟨output, listed, same⟩ := TruthTable.outputs_build built narrow
  have equal : output = value := by
    have projected := Expression.eval_ofIndex_project letters lettered order index
    exact Except.ok.inj (same.symm.trans (projected.trans evaluated))
  rw [cell, cell?, List.getElem?_map, listed, equal, Option.map_some]

theorem size_ofExpression_le (loaded : ofExpression text .standard = .ok s) :
    s.vars.size ≤ TruthTable.maxVariables := by
  have fits := (sized_ofExpression loaded).size_le
  rwa [limits_ofExpression loaded] at fits

theorem minimize_ofExpression (loaded : ofExpression text .standard = .ok s) (form : Form) :
    (s.withForm form).minimize = .ok (s.outcome form) := by
  refine minimize_withForm_eq_ok_iff.mpr ⟨?_, rfl⟩
  rw [limits_ofExpression loaded]
  exact size_ofExpression_le loaded

/-- The text of a minimized expression is loaded as the function of the expression, over those of its
variables that are still written. -/
theorem exists_widens_of_outcome (loaded : ofExpression text .standard = .ok s) (form : Form) :
    ∃ few kept, ofExpression (s.outcome form).text .standard = .ok few ∧ few.Widens kept s := by
  have sized := sized_ofExpression loaded
  obtain ⟨whole, parsedWhole, same, cells⟩ := cell?_ofExpression loaded
  have lettered : s.vars.Lettered := same ▸ Expression.lettered_vars parsedWhole
  obtain ⟨e, parsed, shown⟩ := isShownBy_outcome sized lettered form
  have letters := Expression.lettered_vars parsed
  have values : ∀ index < 2 ^ s.vars.size, ∃ value,
      e.eval (.ofIndex s.vars index) = .ok value ∧ s.cell? index = some (.ofBool value) := by
    intro index inside
    obtain ⟨value, _, cell⟩ := cells index (same ▸ inside)
    refine ⟨value, ?_, cell⟩
    cases value with
    | false => exact (shown index inside).2 cell
    | true => exact (shown index inside).1 cell
  have subset : e.vars.names ⊆ s.vars.names := by
    obtain ⟨value, evaluated, _⟩ := values 0 (Nat.two_pow_pos _)
    exact Expression.names_subset_of_eval letters.2 lettered evaluated
  have order : e.vars.names.Sublist s.vars.names := by
    rw [same] at subset ⊢
    exact Expression.sublist_vars subset
  obtain ⟨few, again, widens⟩ :=
    exists_widens_of_values sized lettered parsed order (size_ofExpression_le loaded) values
  exact ⟨few, _, again, widens⟩

/-- Minimizing an expression in either form gives a text that is loaded again, and that is minimized
in the same form to itself. -/
theorem minimize_text_fixed (loaded : ofExpression text .standard = .ok s) (form : Form) :
    ∃ m, (s.withForm form).minimize = .ok m ∧
    ∃ again, ofExpression m.text .standard = .ok again ∧
    ∃ n, (again.withForm form).minimize = .ok n ∧ n.text = m.text := by
  obtain ⟨few, kept, again, widens⟩ := exists_widens_of_outcome loaded form
  have text_eq := (widens.outcome form).text_eq
  exact ⟨_, minimize_ofExpression loaded form, few, again, _, minimize_ofExpression again form,
    text_eq.symm⟩

theorem minimize_text_fixed_dropped :
    let s : Session := ⟨⟨['A', 'B']⟩, .sop, [.zero, .one, .zero, .one], .standard⟩
    ofExpression "AB+A'B" .standard = .ok s ∧
    ∃ m, (s.withForm .pos).minimize = .ok m ∧
    ∃ again, ofExpression m.text .standard = .ok again ∧
    ∃ n, (again.withForm .pos).minimize = .ok n ∧ n.text = m.text := by
  intro s
  have loaded : ofExpression "AB+A'B" .standard = .ok s := by decide +kernel
  exact ⟨loaded, minimize_text_fixed loaded .pos⟩

end Session

end Switching
