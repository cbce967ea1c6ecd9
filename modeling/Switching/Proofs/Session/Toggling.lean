import Switching.Proofs.KarnaughMap
import Switching.Proofs.Session.Run

/-! # Runs of toggles

A toggle goes on to the next value at one index, which it gives itself or by a position on the map, and
changes nothing else (`apply_eq_ok_iff`). So after a run of toggles each cell has gone on as often as it
was meant (`cell?_run`), in whatever order (`run_of_perm`).
-/

namespace Switching

namespace Cell

theorem next_ne (value : Cell) : value.next ≠ value := by
  cases value <;> decide

theorem place_lt (value : Cell) : value.place < 3 := by
  cases value <;> decide

theorem place_next (value : Cell) : value.next.place = (value.place + 1) % 3 := by
  cases value <;> rfl

/-- Each step goes on by one place in the cycle. -/
theorem place_iterate_next (steps : Nat) (value : Cell) :
    (next^[steps] value).place = (value.place + steps) % 3 := by
  induction steps with
  | zero => exact (Nat.mod_eq_of_lt value.place_lt).symm
  | succ steps ih =>
    rw [Function.iterate_succ_apply', place_next, ih, Nat.mod_add_mod, Nat.add_assoc]

/-- After three steps a cell has its value again. -/
theorem iterate_next_mod (steps : Nat) (value : Cell) : next^[steps % 3] value = next^[steps] value := by
  have period : Function.IsPeriodicPt next 3 value := by
    cases value <;> rfl
  exact period.iterate_mod_apply steps

end Cell

namespace Session

variable {change : Edit} {changes others : List Edit} {s next : Session} {map : KarnaughMap}
variable {index other row col : Nat}

theorem layout_eq_ok_iff : s.layout = .ok map ↔
    s.vars.size ≤ s.limits.map ∧ KarnaughMap.ofVariables s.vars = some map := by
  rw [layout, bind_eq_ok_iff]
  constructor
  · rintro ⟨_, fits, found⟩
    refine ⟨Limits.check_eq_ok_iff.mp fits, ?_⟩
    split at found
    · next same => rwa [Except.ok.inj found] at same
    · cases found
  · rintro ⟨fits, found⟩
    refine ⟨(), Limits.check_eq_ok_iff.mpr fits, ?_⟩
    rw [found]
    rfl

theorem size_layout (laid : s.layout = .ok map) : map.size = s.vars.size :=
  KarnaughMap.size_of_ofVariables (layout_eq_ok_iff.mp laid).2

/-! ## One toggle -/

theorem toggles_toggleCell_iff : s.toggles index (.toggleCell row col) = true ↔
    ∃ map, s.layout = .ok map ∧ map.index? row col = some index := by
  rw [toggles]
  cases s.layout with
  | error fault => simp
  | ok map => simp [KarnaughMap.position?_eq_some_iff]

/-- A change toggles one cell at most. -/
theorem eq_of_toggles (one : s.toggles index change = true) (two : s.toggles other change = true) :
    index = other := by
  cases change with
  | toggle target => exact (beq_iff_eq.mp one).symm.trans (beq_iff_eq.mp two)
  | toggleCell row col =>
    obtain ⟨map, laid, found⟩ := toggles_toggleCell_iff.mp one
    obtain ⟨same, again, also⟩ := toggles_toggleCell_iff.mp two
    obtain rfl := Except.ok.inj (laid.symm.trans again)
    exact Option.some.inj (found.symm.trans also)
  | setCell | setForm | setVariables => cases one

/-- What a toggle does. -/
theorem apply_eq_ok_iff (toggle : change.isToggle = true) : s.apply change = .ok next ↔
    ∃ index value, s.toggles index change = true ∧ s.cell? index = some value ∧
      next = { s with cells := s.cells.set index value.next } := by
  cases change with
  | toggle target =>
    refine toggle_eq_ok_iff.trans ⟨?_, ?_⟩
    · rintro ⟨value, found, same⟩
      exact ⟨target, value, beq_self_eq_true target, found, same⟩
    · rintro ⟨index, value, hit, found, same⟩
      obtain rfl := beq_iff_eq.mp hit
      exact ⟨value, found, same⟩
  | toggleCell row col =>
    refine toggleCell_eq_ok_iff.trans ⟨?_, ?_⟩
    · rintro ⟨map, index, laid, found, toggled⟩
      obtain ⟨value, here, same⟩ := toggle_eq_ok_iff.mp toggled
      exact ⟨index, value, toggles_toggleCell_iff.mpr ⟨map, laid, found⟩, here, same⟩
    · rintro ⟨index, value, hit, here, same⟩
      obtain ⟨map, laid, found⟩ := toggles_toggleCell_iff.mp hit
      exact ⟨map, index, laid, found, toggle_eq_ok_iff.mpr ⟨value, here, same⟩⟩
  | setCell | setForm | setVariables => cases toggle

/-- Nothing but the values of cells is different. -/
structure DiffersInValues (s next : Session) : Prop where
  frame : next = { s with cells := next.cells }
  length_cells : next.cells.length = s.cells.length

theorem DiffersInValues.refl (s : Session) : s.DiffersInValues s := ⟨rfl, rfl⟩

theorem DiffersInValues.trans {mid : Session} (first : s.DiffersInValues mid)
    (second : mid.DiffersInValues next) : s.DiffersInValues next := by
  refine ⟨?_, second.length_cells.trans first.length_cells⟩
  rw [second.frame, first.frame]

/-- Which cell a change toggles does not depend on the values of cells. -/
theorem DiffersInValues.toggles_eq (differs : s.DiffersInValues next) :
    next.toggles = s.toggles := by
  rw [differs.frame]
  rfl

theorem differsInValues_apply (toggle : change.isToggle = true) (success : s.apply change = .ok next) :
    s.DiffersInValues next := by
  obtain ⟨index, value, _, _, rfl⟩ := (apply_eq_ok_iff toggle).mp success
  exact ⟨rfl, List.length_set⟩

/-- The toggled cell has its next value, the others are as they were. -/
theorem cell?_apply (toggle : change.isToggle = true) (success : s.apply change = .ok next)
    (index : Nat) :
    next.cell? index = (s.cell? index).map (Cell.next^[if s.toggles index change then 1 else 0]) := by
  obtain ⟨target, value, hit, found, rfl⟩ := (apply_eq_ok_iff toggle).mp success
  have inside := (List.getElem?_eq_some_iff.mp found).1
  by_cases same : target = index
  · subst same
    rw [if_pos hit, found, cell?, List.getElem?_set_self inside]
    rfl
  · rw [if_neg fun also => same (eq_of_toggles hit also), cell?, List.getElem?_set_ne same]
    exact Option.map_id_apply.symm

/-- Whether a toggle succeeds does not depend on the values of cells. -/
theorem exists_apply_iff (toggle : change.isToggle = true) :
    (∃ next, s.apply change = .ok next) ↔
      ∃ index < s.cells.length, s.toggles index change = true := by
  constructor
  · rintro ⟨next, success⟩
    obtain ⟨index, value, hit, found, _⟩ := (apply_eq_ok_iff toggle).mp success
    exact ⟨index, (List.getElem?_eq_some_iff.mp found).1, hit⟩
  · rintro ⟨index, inside, hit⟩
    exact ⟨_, (apply_eq_ok_iff toggle).mpr ⟨index, _, hit, List.getElem?_eq_getElem inside, rfl⟩⟩

/-! ## Runs of toggles -/

theorem differsInValues_run (only : ∀ change ∈ changes, change.isToggle = true)
    (success : s.run changes = .ok next) : s.DiffersInValues next := by
  induction changes generalizing s with
  | nil =>
    cases success
    exact .refl _
  | cons change changes ih =>
    obtain ⟨toggle, only⟩ := List.forall_mem_cons.mp only
    obtain ⟨mid, changed, success⟩ := run_cons_eq_ok_iff.mp success
    exact (differsInValues_apply toggle changed).trans (ih only success)

/-- Each cell has gone on as often as it was toggled. -/
theorem cell?_run (only : ∀ change ∈ changes, change.isToggle = true)
    (success : s.run changes = .ok next) (index : Nat) :
    next.cell? index = (s.cell? index).map (Cell.next^[changes.countP (s.toggles index)]) := by
  induction changes generalizing s with
  | nil =>
    cases success
    exact Option.map_id_apply.symm
  | cons change changes ih =>
    obtain ⟨toggle, only⟩ := List.forall_mem_cons.mp only
    obtain ⟨mid, changed, success⟩ := run_cons_eq_ok_iff.mp success
    rw [ih only success, (differsInValues_apply toggle changed).toggles_eq, cell?_apply toggle changed,
      Option.map_map, ← Function.iterate_add, List.countP_cons]

theorem exists_run_iff (only : ∀ change ∈ changes, change.isToggle = true) :
    (∃ next, s.run changes = .ok next) ↔
      ∀ change ∈ changes, ∃ index < s.cells.length, s.toggles index change = true := by
  induction changes generalizing s with
  | nil => exact iff_of_true ⟨s, rfl⟩ nofun
  | cons change changes ih =>
    obtain ⟨toggle, only⟩ := List.forall_mem_cons.mp only
    rw [List.forall_mem_cons, ← exists_apply_iff toggle]
    simp only [run_cons_eq_ok_iff]
    constructor
    · rintro ⟨next, mid, changed, success⟩
      have differs := differsInValues_apply toggle changed
      have rest := (ih only).mp ⟨next, success⟩
      rw [differs.toggles_eq, differs.length_cells] at rest
      exact ⟨⟨mid, changed⟩, rest⟩
    · rintro ⟨⟨mid, changed⟩, rest⟩
      have differs := differsInValues_apply toggle changed
      rw [← differs.toggles_eq, ← differs.length_cells] at rest
      obtain ⟨next, success⟩ := (ih only).mpr rest
      exact ⟨next, mid, changed, success⟩

/-- The order of toggles does not matter. -/
theorem run_of_perm (only : ∀ change ∈ changes, change.isToggle = true) (perm : others.Perm changes)
    (success : s.run changes = .ok next) : s.run others = .ok next := by
  have onlyOthers : ∀ change ∈ others, change.isToggle = true :=
    fun change member => only change (perm.mem_iff.mp member)
  have possible := (exists_run_iff only).mp ⟨next, success⟩
  obtain ⟨last, reordered⟩ := (exists_run_iff onlyOthers).mpr fun change member =>
    possible change (perm.mem_iff.mp member)
  have cells : last.cells = next.cells := List.ext_getElem? fun index => by
    have one := cell?_run only success index
    have two := cell?_run onlyOthers reordered index
    rw [perm.countP_eq, ← one] at two
    exact two
  rw [reordered, (differsInValues_run only success).frame,
    (differsInValues_run onlyOthers reordered).frame, cells]

/-! ## Toggles by position -/

theorem toggleCell_of_index? (laid : s.layout = .ok map) (found : map.index? row col = some index) :
    s.toggleCell row col = s.toggle index := by
  rw [toggleCell, laid]
  simp only [bind, Except.bind, found]

theorem toggleCell_of_none (laid : s.layout = .ok map) (outside : map.index? row col = none) :
    s.toggleCell row col = .error (.noSuchPosition row col) := by
  rw [toggleCell, laid]
  simp only [bind, Except.bind, outside]

/-- Toggles of different cells have different outcomes. -/
theorem eq_of_toggle_eq (one : s.toggle index = .ok next) (two : s.toggle other = .ok next) :
    index = other := by
  by_contra different
  obtain ⟨value, found, _⟩ := toggle_eq_ok_iff.mp one
  have changed := cell?_apply rfl (show s.apply (.toggle index) = .ok next from one) index
  have kept := cell?_apply rfl (show s.apply (.toggle other) = .ok next from two) index
  rw [found, toggles, if_pos (beq_self_eq_true index)] at changed
  rw [found, toggles, if_neg fun same => different (beq_iff_eq.mp same).symm, changed] at kept
  exact value.next_ne (Option.some.inj kept)

/-- On a session with a map, each cell is toggled at one position, the one that the map gives. -/
theorem toggleCell_eq_toggle_iff (sized : s.Sized) (laid : s.layout = .ok map)
    (inside : index < 2 ^ s.vars.size) :
    s.toggleCell row col = s.toggle index ↔ map.position? index = some (row, col) := by
  rw [KarnaughMap.position?_eq_some_iff]
  constructor
  · intro same
    obtain ⟨value, found⟩ := Option.isSome_iff_exists.mp ((sized.isSome_cell?_iff index).mpr inside)
    have toggled := toggle_eq_ok_iff.mpr ⟨value, found, rfl⟩
    obtain ⟨other, target, again, here, success⟩ := toggleCell_eq_ok_iff.mp (same.trans toggled)
    obtain rfl := Except.ok.inj (laid.symm.trans again)
    exact eq_of_toggle_eq toggled success ▸ here
  · exact toggleCell_of_index? laid

theorem existsUnique_toggleCell (sized : s.Sized) (laid : s.layout = .ok map)
    (inside : index < 2 ^ s.vars.size) :
    ∃! position : Nat × Nat, s.toggleCell position.1 position.2 = s.toggle index := by
  simp only [toggleCell_eq_toggle_iff sized laid inside, KarnaughMap.position?_eq_some_iff]
  exact KarnaughMap.existsUnique_index? (size_layout laid ▸ inside)

/-- A position on the map is that of one cell, and no other position can be toggled. -/
theorem position?_or_toggleCell_eq_error (laid : s.layout = .ok map) (row col : Nat) :
    (∃ index < 2 ^ s.vars.size, map.position? index = some (row, col)) ∨
      s.toggleCell row col = .error (.noSuchPosition row col) := by
  cases found : map.index? row col with
  | none => exact .inr (toggleCell_of_none laid found)
  | some index =>
    refine .inl ⟨index, ?_, KarnaughMap.position?_eq_some_iff.mpr found⟩
    exact size_layout laid ▸ KarnaughMap.index?_lt found

/-- A run of toggles changes nothing but the values of cells, and each cell goes on as often as it is
named or its position on the map is, by one place in the cycle from false to true, to a value that does
not matter and back. This is all that matters up to multiples of three, in whatever order. If there is a
map, each cell is toggled at exactly one position, and all positions that are not on the map are
refused. -/
theorem toggles_of_run (reachable : s.Reachable) (only : ∀ change ∈ changes, change.isToggle = true)
    (success : s.run changes = .ok next) :
    next = { s with cells := next.cells } ∧
    (∀ index, next.cell? index = (s.cell? index).map (Cell.next^[changes.countP (s.toggles index)]) ∧
      next.cell? index = (s.cell? index).map (Cell.next^[changes.countP (s.toggles index) % 3]) ∧
      ∀ before, s.cell? index = some before → ∃ after, next.cell? index = some after ∧
        after.place = (before.place + changes.countP (s.toggles index)) % 3) ∧
    (∀ others : List Edit, others.Perm changes → s.run others = .ok next) ∧
    ∀ map, s.layout = .ok map →
      (∀ index < 2 ^ s.vars.size,
        (∃! position : Nat × Nat, s.toggleCell position.1 position.2 = s.toggle index) ∧
        ∀ row col, s.toggleCell row col = s.toggle index ↔ map.position? index = some (row, col)) ∧
      ∀ row col, (∃ index < 2 ^ s.vars.size, map.position? index = some (row, col)) ∨
        s.toggleCell row col = .error (.noSuchPosition row col) := by
  have sized := reachable.sized
  refine ⟨(differsInValues_run only success).frame, fun index => ?_,
    fun others perm => run_of_perm only perm success, fun map laid => ⟨fun index inside => ⟨?_, ?_⟩, ?_⟩⟩
  · have cell := cell?_run only success index
    refine ⟨cell, cell.trans (congrArg (Option.map · _) (funext fun value => ?_)), fun before found => ?_⟩
    · exact (Cell.iterate_next_mod _ value).symm
    · rw [found, Option.map_some] at cell
      exact ⟨_, cell, Cell.place_iterate_next _ before⟩
  · exact existsUnique_toggleCell sized laid inside
  · exact fun row col => toggleCell_eq_toggle_iff sized laid inside
  · exact position?_or_toggleCell_eq_error laid

theorem toggles_of_run_mixed :
    let s : Session := ⟨⟨['A', 'B', 'C']⟩, .pos,
      [.zero, .one, .dontCare, .zero, .zero, .zero, .zero, .one], ⟨3, 3, 3⟩⟩
    let next : Session := ⟨⟨['A', 'B', 'C']⟩, .pos,
      [.zero, .one, .zero, .zero, .zero, .zero, .zero, .dontCare], ⟨3, 3, 3⟩⟩
    let changes : List Edit := [.toggle 7, .toggleCell 1 2, .toggleCell 0 3, .toggle 7, .toggleCell 1 2]
    s.Reachable ∧ (∀ change ∈ changes, change.isToggle = true) ∧ s.run changes = .ok next ∧
    next = { s with cells := next.cells } ∧
    (∀ index, next.cell? index = (s.cell? index).map (Cell.next^[changes.countP (s.toggles index)]) ∧
      next.cell? index = (s.cell? index).map (Cell.next^[changes.countP (s.toggles index) % 3]) ∧
      ∀ before, s.cell? index = some before → ∃ after, next.cell? index = some after ∧
        after.place = (before.place + changes.countP (s.toggles index)) % 3) ∧
    (∀ others : List Edit, others.Perm changes → s.run others = .ok next) ∧
    ∀ map, s.layout = .ok map →
      (∀ index < 2 ^ s.vars.size,
        (∃! position : Nat × Nat, s.toggleCell position.1 position.2 = s.toggle index) ∧
        ∀ row col, s.toggleCell row col = s.toggle index ↔ map.position? index = some (row, col)) ∧
      ∀ row col, (∃ index < 2 ^ s.vars.size, map.position? index = some (row, col)) ∨
        s.toggleCell row col = .error (.noSuchPosition row col) := by
  intro s next changes
  let start : Session := { s with form := .sop }
  have loaded : ofTerms start.vars ⟨.ofList [1, 7], .ofList [2]⟩ start.limits = .ok start := rfl
  have chosen : start.apply (.setForm .pos) = .ok s := rfl
  have reachable : s.Reachable := .edit (.ofTerms loaded) chosen
  have only : ∀ change ∈ changes, change.isToggle = true := by decide
  have success : s.run changes = .ok next := by decide +kernel
  exact ⟨reachable, only, success, toggles_of_run reachable only success⟩

end Session

end Switching
