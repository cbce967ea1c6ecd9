import Switching.Proofs.Form.Reading
import Switching.Proofs.Minimized

/-! # The value of a minimized expression

The selected cubes have the values of every required minterm and of no index that is not a term. So
the expression that they are written as is true, or false in a product of sums, exactly there
(`value_of_required`, `value_of_absent`), and reading what is written gives an expression with that
value (`eval_render`, `eval_text`).
-/

namespace Switching.Minimized

variable {minterms dontcares : IndexSet} {vars : Variables} {form : Form} {c : Cube} {index : Nat}

theorem width_of_mem_cover (narrow : vars.size < Minterm.wordSize)
    (member : c ∈ (minimize minterms dontcares vars form).cover) : c.width = vars.size :=
  width_of_mem_primes (.of_narrow narrow) (mem_primes_of_mem_cover member)

theorem covers_of_agrees (narrow : vars.size < Minterm.wordSize)
    (member : c ∈ (minimize minterms dontcares vars form).cover) (inside : index < 2 ^ vars.size)
    (agrees : c.pattern.agrees index = true) : c.covers index = true := by
  have width : c.pattern.length = vars.size := width_of_mem_cover narrow member
  exact (Pattern.covers_eq_agrees (width ▸ narrow) (width ▸ inside)).trans agrees

/-- Some selected cube has the values of a required minterm. -/
theorem exists_agrees (form : Form) (narrow : vars.size < Minterm.wordSize)
    (term : index ∈ minterms) (required : index ∉ dontcares) (inside : index < 2 ^ vars.size) :
    ∃ c ∈ (minimize minterms dontcares vars form).cover, c.pattern.agrees index = true := by
  obtain ⟨c, member, covers⟩ := exists_covering form narrow term required inside
  exact ⟨c, member, (Bool.and_eq_true_iff.mp covers).2⟩

/-- No selected cube has the values of an index that is no term. -/
theorem agrees_eq_false (narrow : vars.size < Minterm.wordSize)
    (member : c ∈ (minimize minterms dontcares vars form).cover) (absent : index ∉ minterms)
    (closed : index ∉ dontcares) (inside : index < 2 ^ vars.size) :
    c.pattern.agrees index = false := by
  rw [Bool.eq_false_iff]
  intro agrees
  have covers := covers_of_agrees narrow member inside agrees
  exact (mem_terms_of_covers narrow member covers).2.elim absent closed

/-- A product of sums is false where it has to be, as long as the function is not false everywhere:
then no cube covers all indices, and no term is the constant 1. -/
theorem value_of_required (form : Form) (narrow : vars.size < Minterm.wordSize)
    (term : index ∈ minterms) (required : index ∉ dontcares) (inside : index < 2 ^ vars.size)
    (outside : form = .pos → ∃ other < 2 ^ vars.size, other ∉ minterms ∧ other ∉ dontcares) :
    form.value (minimize minterms dontcares vars form).cover index = (form == .sop) := by
  obtain ⟨c, member, agrees⟩ := exists_agrees form narrow term required inside
  cases form with
  | sop => exact List.any_eq_true.mpr ⟨c, member, agrees⟩
  | pos =>
    obtain ⟨other, small, absent, closed⟩ := outside rfl
    have fixed : c.pattern.fixed.isEmpty = false := by
      have misses := agrees_eq_false narrow member absent closed small
      rw [List.isEmpty_eq_false_iff]
      rintro free
      rw [Form.agrees_eq_all, free] at misses
      cases misses
    refine List.all_eq_false.mpr ⟨c, member, ?_⟩
    rw [Form.termValue, fixed, agrees]
    decide

theorem value_of_absent (form : Form) (narrow : vars.size < Minterm.wordSize)
    (absent : index ∉ minterms) (closed : index ∉ dontcares) (inside : index < 2 ^ vars.size) :
    form.value (minimize minterms dontcares vars form).cover index = (form == .pos) := by
  have misses : ∀ c ∈ (minimize minterms dontcares vars form).cover,
      c.pattern.agrees index = false :=
    fun c member => agrees_eq_false narrow member absent closed inside
  cases form with
  | sop =>
    refine List.any_eq_false.mpr fun c member => ?_
    rw [Form.termValue, misses c member]
    decide
  | pos =>
    refine List.all_eq_true.mpr fun c member => ?_
    rw [Form.termValue, misses c member, Bool.not_false, Bool.or_true]

/-- In each of the styles that are offered, the selected cubes are written as an expression with their
value. -/
theorem eval_render {style : Style} (preset : style ∈ Style.presets) (lettered : vars.Lettered)
    (narrow : vars.size < Minterm.wordSize) :
    let m := minimize minterms dontcares vars form
    ∃ e, Expression.parse (m.render style) = .ok e ∧
      ∀ index, e.eval (.ofIndex vars index) = .ok (form.value m.cover index) := by
  dsimp only
  rw [render_minimize]
  exact Style.eval_render preset form lettered fun _ => width_of_mem_cover narrow

/-- The text is an expression with the value of the selected cubes. -/
theorem eval_text (lettered : vars.Lettered) (narrow : vars.size < Minterm.wordSize) :
    let m := minimize minterms dontcares vars form
    ∃ e, Expression.parse m.text = .ok e ∧
      ∀ index, e.eval (.ofIndex vars index) = .ok (form.value m.cover index) := by
  dsimp only
  rw [text_minimize]
  exact eval_render (List.mem_cons_self ..) lettered narrow

/-! ## Functions that are known to be constant -/

/-- Without cubes a product is written as 1 in every style. -/
theorem parse_render_ofConstant (style : Style) (vars : Variables) (value : Bool) :
    Expression.parse ((ofConstant .pos vars value).render style) =
      .ok ⟨[.constant true]⟩ := by
  have phrase : Phrase .sum "1".toList (.constant true) := (Phrase.constant true).of_primary
  exact phrase.parse_eq

theorem parse_text_ofConstant (form : Form) (vars : Variables) (value : Bool) :
    Expression.parse (ofConstant form vars value).text = .ok ⟨[.constant value]⟩ := by
  have phrase : Phrase .sum (String.singleton (Text.bit value)).toList (.constant value) := by
    rw [String.toList_singleton]
    exact (Phrase.constant value).of_primary
  exact phrase.parse_eq

end Switching.Minimized
