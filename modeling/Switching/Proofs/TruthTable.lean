import Switching.Proofs.Minterm
import Switching.Proofs.Outcome
import Switching.TruthTable

/-! # Tabulated expressions

An expression is tabulated over a limited number of variables if it has a value at each index. The
table then lists these values (`build_eq_ok_iff`, `outputs_build`).
-/

namespace Switching.TruthTable

variable {vars : Variables} {expression : Option Expression} {table : TruthTable} {index : Nat}

theorem build_eq_ok_iff : build vars expression = .ok table ↔
    vars.size ≤ maxVariables ∧ table.vars = vars ∧
      (List.range (2 ^ vars.size)).map (outputAt vars expression) = table.outputs.map .ok := by
  rw [build, Minterm.count_eq]
  split
  · next large => exact iff_of_false nofun fun small => Nat.not_lt.mpr small.1 large
  · next small =>
    rw [map_eq_ok_iff]
    constructor
    · rintro ⟨outputs, computed, rfl⟩
      exact ⟨Nat.not_lt.mp small, rfl, mapM_eq_ok_iff.mp computed⟩
    · rintro ⟨_, rfl, computed⟩
      exact ⟨table.outputs, mapM_eq_ok_iff.mpr computed, rfl⟩

theorem length_outputs (built : build vars expression = .ok table) :
    table.outputs.length = 2 ^ vars.size := by
  have lengths := congrArg List.length (build_eq_ok_iff.mp built).2.2
  rwa [List.length_map, List.length_map, List.length_range, eq_comm] at lengths

/-- The table lists the value at each index. -/
theorem outputs_build (built : build vars expression = .ok table) (inside : index < 2 ^ vars.size) :
    ∃ output, table.outputs[index]? = some output ∧ outputAt vars expression index = .ok output := by
  have entries := congrArg (·[index]?) (build_eq_ok_iff.mp built).2.2
  simp only [List.getElem?_map, List.getElem?_range inside, Option.map_some] at entries
  obtain ⟨output, listed, same⟩ := Option.map_eq_some_iff.mp entries.symm
  exact ⟨output, listed, same.symm⟩

theorem mem_minterms_build (built : build vars expression = .ok table) :
    index ∈ table.minterms ↔ index < 2 ^ vars.size ∧ outputAt vars expression index = .ok true := by
  rw [minterms, mem_indicesOf]
  constructor
  · intro found
    have inside : index < 2 ^ vars.size :=
      length_outputs built ▸ (List.getElem?_eq_some_iff.mp found).1
    obtain ⟨output, listed, value⟩ := outputs_build built inside
    obtain rfl : output = true := Option.some.inj (listed.symm.trans found)
    exact ⟨inside, value⟩
  · rintro ⟨inside, value⟩
    obtain ⟨output, listed, same⟩ := outputs_build built inside
    obtain rfl : output = true := Except.ok.inj (same.symm.trans value)
    exact listed

/-- A function of few variables can be tabulated if it has a value everywhere. -/
theorem exists_build (small : vars.size ≤ maxVariables)
    (valued : ∀ index < 2 ^ vars.size, ∃ output, outputAt vars expression index = .ok output) :
    ∃ table, build vars expression = .ok table := by
  choose! output same using valued
  refine ⟨⟨vars, (List.range (2 ^ vars.size)).map output⟩, build_eq_ok_iff.mpr ⟨small, rfl, ?_⟩⟩
  rw [List.map_map]
  exact List.map_congr_left fun index member => same index (List.mem_range.mp member)

end Switching.TruthTable
