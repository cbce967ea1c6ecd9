import Switching.Proofs.TruthTable
import Switching.Session.Edit

/-! # The number of cells

What the ways to make a session return is stated once (`blank_eq_ok_iff`, `ofExpression_eq_ok_iff`,
`withVariables_eq_ok_iff`). However a session was reached, it has one cell for each assignment of its
variables, and no more variables than it is allowed to hold (`Reachable.sized`).
-/

namespace Switching

theorem Limits.check_eq_ok_iff {count max : Nat} : check count max = .ok () ↔ count ≤ max := by
  rw [check]
  split
  · exact iff_of_false (by simp) (by omega)
  · exact iff_of_true rfl (by omega)

theorem Cell.ofBool_eq_one_iff {value : Bool} : ofBool value = .one ↔ value = true := by
  cases value <;> decide

namespace Session

/-- A session has a cell for each assignment of its variables, and keeps to its limit. -/
structure Sized (s : Session) : Prop where
  length_cells : s.cells.length = 2 ^ s.vars.size
  size_le : s.vars.size ≤ s.limits.table

variable {s next : Session} {vars : Variables} {limits : Limits} {index : Nat} {value : Cell}
  {fault : Fault}

theorem Sized.lt_of_cell? (sized : s.Sized)
    (found : s.cell? index = some value) : index < 2 ^ s.vars.size :=
  sized.length_cells ▸ (List.getElem?_eq_some_iff.mp found).1

theorem blank_eq_ok_iff : blank vars limits = .ok s ↔ vars.size ≤ limits.table ∧
    s = ⟨vars, .sop, List.replicate (2 ^ vars.size) .zero, limits⟩ := by
  rw [blank, bind_eq_ok_iff, Minterm.count_eq]
  constructor
  · rintro ⟨_, fits, same⟩
    cases same
    exact ⟨Limits.check_eq_ok_iff.mp fits, rfl⟩
  · rintro ⟨fits, rfl⟩
    exact ⟨(), Limits.check_eq_ok_iff.mpr fits, rfl⟩

theorem sized_blank (success : blank vars limits = .ok s) : s.Sized := by
  obtain ⟨fits, rfl⟩ := blank_eq_ok_iff.mp success
  exact ⟨List.length_replicate, fits⟩

theorem ofExpression_eq_ok_iff {text : String} : ofExpression text limits = .ok s ↔
    ∃ e, Expression.parse text = .ok e ∧ e.vars.size ≤ limits.table ∧
      ∃ table, TruthTable.build e.vars (some e) = .ok table ∧
        s = ⟨e.vars, .sop, table.outputs.map Cell.ofBool, limits⟩ := by
  rw [ofExpression, bind_eq_ok_iff]
  refine exists_congr fun e => and_congr_right fun _ => ?_
  rw [bind_eq_ok_iff]
  constructor
  · rintro ⟨_, fits, loaded⟩
    obtain ⟨table, built, same⟩ := bind_eq_ok_iff.mp loaded
    cases same
    exact ⟨Limits.check_eq_ok_iff.mp fits, table, built, rfl⟩
  · rintro ⟨fits, table, built, rfl⟩
    exact ⟨(), Limits.check_eq_ok_iff.mpr fits, bind_eq_ok_iff.mpr ⟨table, built, rfl⟩⟩

theorem sized_ofExpression {text : String} (success : ofExpression text limits = .ok s) :
    s.Sized := by
  obtain ⟨e, _, fits, table, built, rfl⟩ := ofExpression_eq_ok_iff.mp success
  exact ⟨(List.length_map ..).trans (TruthTable.length_outputs built), fits⟩

theorem ofTerms_eq_ok_iff {terms : TermList} : ofTerms vars terms limits = .ok s ↔
    vars.size ≤ limits.table ∧ (∀ index ∈ terms.indices, index < 2 ^ vars.size) ∧
      s = ⟨vars, .sop, (List.range (2 ^ vars.size)).map (cellOf terms), limits⟩ := by
  rw [ofTerms, bind_eq_ok_iff]
  constructor
  · rintro ⟨start, blank, success⟩
    obtain ⟨fits, rfl⟩ := blank_eq_ok_iff.mp blank
    simp only [List.length_replicate] at success
    split at success
    · cases success
    · next inside =>
      cases success
      exact ⟨fits, by simpa using inside, rfl⟩
  · rintro ⟨fits, inside, rfl⟩
    refine ⟨_, blank_eq_ok_iff.mpr ⟨fits, rfl⟩, ?_⟩
    have none : terms.indices.find? (2 ^ vars.size ≤ ·) = none := by simpa using inside
    simp only [List.length_replicate, none]
    rfl

theorem sized_ofTerms {terms : TermList} (success : ofTerms vars terms limits = .ok s) :
    s.Sized := by
  obtain ⟨fits, _, rfl⟩ := ofTerms_eq_ok_iff.mp success
  exact ⟨(List.length_map ..).trans List.length_range, fits⟩

theorem withVariables_eq_ok_iff : s.withVariables vars = .ok next ↔
    vars.size ≤ s.limits.table ∧ next = ⟨vars, s.form, (List.range (2 ^ vars.size)).map fun index =>
      (s.cell? (s.sourceIndex vars index)).getD default, s.limits⟩ := by
  rw [withVariables, bind_eq_ok_iff]
  constructor
  · rintro ⟨start, blank, same⟩
    obtain ⟨fits, rfl⟩ := blank_eq_ok_iff.mp blank
    cases same
    refine ⟨fits, ?_⟩
    rw [List.length_replicate]
  · rintro ⟨fits, rfl⟩
    refine ⟨_, blank_eq_ok_iff.mpr ⟨fits, rfl⟩, ?_⟩
    rw [List.length_replicate]
    rfl

theorem vars_withVariables (success : s.withVariables vars = .ok next) : next.vars = vars := by
  obtain ⟨_, rfl⟩ := withVariables_eq_ok_iff.mp success
  rfl

theorem sized_withVariables (success : s.withVariables vars = .ok next) : next.Sized := by
  obtain ⟨fits, rfl⟩ := withVariables_eq_ok_iff.mp success
  exact ⟨(List.length_map ..).trans List.length_range, fits⟩

/-! ## Changes -/

theorem withCell_eq_ok_iff : s.withCell index value = .ok next ↔
    index < s.cells.length ∧ next = { s with cells := s.cells.set index value } := by
  rw [withCell]
  split
  · next inside => exact ⟨fun same => ⟨inside, (Except.ok.inj same).symm⟩, fun both => both.2 ▸ rfl⟩
  · next outside => exact iff_of_false nofun fun both => outside both.1

theorem withCell_eq_error_iff : s.withCell index value = .error fault ↔
    s.cells.length ≤ index ∧ fault = .noSuchCell index := by
  rw [withCell]
  split
  · next inside => exact iff_of_false nofun fun both => Nat.not_le.mpr inside both.1
  · next outside =>
    exact ⟨fun same => ⟨Nat.not_lt.mp outside, (Except.error.inj same).symm⟩, fun both => both.2 ▸ rfl⟩

theorem toggle_eq_ok_iff : s.toggle index = .ok next ↔ ∃ value,
    s.cell? index = some value ∧ next = { s with cells := s.cells.set index value.next } := by
  rw [toggle]
  split
  · next value found =>
    have inside : index < s.cells.length := (List.getElem?_eq_some_iff.mp found).1
    rw [withCell_eq_ok_iff, found]
    simp [inside]
  · next absent => exact iff_of_false nofun fun ⟨value, found, _⟩ => by simp [absent] at found

theorem toggle_eq_error_iff : s.toggle index = .error fault ↔
    s.cells.length ≤ index ∧ fault = .noSuchCell index := by
  rw [toggle]
  split
  · exact withCell_eq_error_iff
  · next absent =>
    have outside : s.cells.length ≤ index := List.getElem?_eq_none_iff.mp absent
    exact ⟨fun same => ⟨outside, (Except.error.inj same).symm⟩, fun both => both.2 ▸ rfl⟩

theorem toggleCell_eq_ok_iff {row col : Nat} : s.toggleCell row col = .ok next ↔ ∃ map index,
    s.layout = .ok map ∧ map.index? row col = some index ∧ s.toggle index = .ok next := by
  rw [toggleCell, bind_eq_ok_iff]
  refine exists_congr fun map => ?_
  cases map.index? row col <;> simp

/-- What a change that succeeds can do: it writes cells, or chooses the form or the variables. -/
theorem apply_cases {change : Edit} (success : s.apply change = .ok next) :
    (∃ index value, change.form? = none ∧ next = { s with cells := s.cells.set index value }) ∨
    (∃ form, change = .setForm form ∧ next = s.withForm form) ∨
    (∃ vars, change = .setVariables vars ∧ s.withVariables vars = .ok next) := by
  cases change with
  | toggle index =>
    obtain ⟨value, _, rfl⟩ := toggle_eq_ok_iff.mp success
    exact .inl ⟨index, _, rfl, rfl⟩
  | toggleCell row col =>
    obtain ⟨map, index, _, _, toggled⟩ := toggleCell_eq_ok_iff.mp success
    obtain ⟨value, _, rfl⟩ := toggle_eq_ok_iff.mp toggled
    exact .inl ⟨index, _, rfl, rfl⟩
  | setCell index value =>
    obtain ⟨_, rfl⟩ := withCell_eq_ok_iff.mp success
    exact .inl ⟨index, value, rfl, rfl⟩
  | setForm form =>
    cases success
    exact .inr (.inl ⟨form, rfl, rfl⟩)
  | setVariables vars => exact .inr (.inr ⟨vars, rfl, success⟩)

/-- A change keeps a session sized. -/
theorem Sized.apply {change : Edit} (sized : s.Sized) (success : s.apply change = .ok next) :
    next.Sized := by
  obtain ⟨index, value, _, rfl⟩ | ⟨form, _, rfl⟩ | ⟨vars, _, changed⟩ := apply_cases success
  · exact ⟨List.length_set.trans sized.length_cells, sized.size_le⟩
  · exact ⟨sized.length_cells, sized.size_le⟩
  · exact sized_withVariables changed

theorem Reachable.sized (reachable : s.Reachable) : s.Sized := by
  induction reachable with
  | blank success => exact sized_blank success
  | ofExpression success => exact sized_ofExpression success
  | ofTerms success => exact sized_ofTerms success
  | edit _ success ih => exact ih.apply success

end Session

end Switching
