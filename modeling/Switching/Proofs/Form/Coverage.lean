import Switching.Proofs.Form.Reading
import Switching.Proofs.Minimized

/-! # What written forms say about their cubes

A list of cubes over distinct letters, written in one of the styles that are offered, is read as an
expression that tells which indices the cubes cover. A sum of products is true at the covered indices.
A product of sums is false there, apart from cubes without a fixed position, whose terms are the
constant 1 (`eval_render_iff_covers`).
-/

namespace Switching

variable {vars : Variables} {cubes : List Cube} {index : Nat}

namespace Form

/-- A sum of products is true at the indices that some cube covers. -/
theorem value_sop_iff (narrow : vars.size < Minterm.wordSize)
    (wide : ∀ c ∈ cubes, c.width = vars.size) (inside : index < 2 ^ vars.size) :
    sop.value cubes index = true ↔ ∃ c ∈ cubes, c.covers index = true := by
  rw [value, List.any_eq_true]
  refine exists_congr fun c => and_congr_right fun member => ?_
  have width : c.pattern.length = vars.size := wide c member
  rw [termValue, Cube.covers, Pattern.covers_eq_agrees (width ▸ narrow) (width ▸ inside)]

/-- A product of sums is true at the indices that no cube with a fixed position covers. -/
theorem value_pos_iff (narrow : vars.size < Minterm.wordSize)
    (wide : ∀ c ∈ cubes, c.width = vars.size) (inside : index < 2 ^ vars.size) :
    pos.value cubes index = true ↔
      ¬ ∃ c ∈ cubes, (∃ value, some value ∈ c.pattern) ∧ c.covers index = true := by
  rw [value, List.all_eq_true]
  push Not
  refine forall₂_congr fun c member => ?_
  have width : c.pattern.length = vars.size := wide c member
  rw [termValue, Bool.or_eq_true, Bool.not_eq_true', List.isEmpty_iff, ← Pattern.fixed_ne_nil_iff,
    Cube.covers, Pattern.covers_eq_agrees (width ▸ narrow) (width ▸ inside), ← Bool.not_eq_true]
  exact or_iff_not_imp_left

end Form

namespace Style

variable {style : Style}

/-- Whatever cubes over distinct letters are written in an offered style, both forms are read as
expressions that have a value at every index: the sum of products is true where some cube covers the
index, and the product of sums where no cube with a fixed position does. -/
theorem eval_render_iff_covers (preset : style ∈ presets) (lettered : vars.Lettered)
    (wide : ∀ c ∈ cubes, c.width = vars.size) :
    (∃ e, Expression.parse (style.render .sop vars cubes) = .ok e ∧ ∀ index < 2 ^ vars.size,
      ∃ value, e.eval (.ofIndex vars index) = .ok value ∧
        (value = true ↔ ∃ c ∈ cubes, c.covers index = true)) ∧
    ∃ e, Expression.parse (style.render .pos vars cubes) = .ok e ∧ ∀ index < 2 ^ vars.size,
      ∃ value, e.eval (.ofIndex vars index) = .ok value ∧ (value = true ↔
        ¬ ∃ c ∈ cubes, (∃ fixed, some fixed ∈ c.pattern) ∧ c.covers index = true) := by
  obtain ⟨sum, sumRead, sumValue⟩ := eval_render preset .sop lettered wide
  obtain ⟨product, productRead, productValue⟩ := eval_render preset .pos lettered wide
  refine ⟨⟨sum, sumRead, fun index inside => ?_⟩, product, productRead, fun index inside => ?_⟩
  · exact ⟨_, sumValue index, Form.value_sop_iff lettered.narrow wide inside⟩
  · exact ⟨_, productValue index, Form.value_pos_iff lettered.narrow wide inside⟩

theorem eval_render_iff_covers_repeated :
    let vars : Variables := ⟨['C', 'A']⟩
    let cubes : List Cube :=
      [.ofPattern [some true, none], .ofPattern [none, none], .ofPattern [some true, none]]
    operators ∈ presets ∧ vars.Lettered ∧ (∀ c ∈ cubes, c.width = vars.size) ∧
    (∃ e, Expression.parse (operators.render .sop vars cubes) = .ok e ∧ ∀ index < 2 ^ vars.size,
      ∃ value, e.eval (.ofIndex vars index) = .ok value ∧
        (value = true ↔ ∃ c ∈ cubes, c.covers index = true)) ∧
    ∃ e, Expression.parse (operators.render .pos vars cubes) = .ok e ∧ ∀ index < 2 ^ vars.size,
      ∃ value, e.eval (.ofIndex vars index) = .ok value ∧ (value = true ↔
        ¬ ∃ c ∈ cubes, (∃ fixed, some fixed ∈ c.pattern) ∧ c.covers index = true) := by
  intro vars cubes
  have preset : operators ∈ presets := by decide
  have lettered : vars.Lettered := by decide
  have wide : ∀ c ∈ cubes, c.width = vars.size := by decide
  exact ⟨preset, lettered, wide, eval_render_iff_covers preset lettered wide⟩

end Style

end Switching
