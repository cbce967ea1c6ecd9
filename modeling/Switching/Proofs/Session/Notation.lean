import Switching.Proofs.Session.Minimization

/-! # Minimized sessions in other styles

The cubes that are selected for a session can be written in another style than that of its text.
They are then read as an expression with the same values, unless the session is known to be false
without any search: only the text tells the constant, while a product without cubes is written as 1
in every style (`eval_minimize_render`).
-/

namespace Switching.Session

variable {s : Session} {m : Minimized} {form : Form} {style : Style}

/-- Except for a product of sums without a one, a session is minimized by a search. -/
theorem exists_outcome_eq (searched : form = .sop ∨ ∃ index, s.cell? index = some .one) :
    ∃ minterms dontcares, s.outcome form = Switching.minimize minterms dontcares s.vars form := by
  cases form with
  | sop => exact ⟨_, _, rfl⟩
  | pos =>
    obtain ⟨index, one⟩ := searched.resolve_left nofun
    exact ⟨_, _, if_neg fun empty => isEmpty_minterms_iff.mp empty index one⟩

theorem outcome_of_absent (absent : ∀ index, s.cell? index ≠ some .one) :
    s.outcome .pos = .ofConstant .pos s.vars false :=
  if_pos (isEmpty_minterms_iff.mpr absent)

/-- However a session over distinct letters was reached, what is written for its minimization in an
offered style is read as an expression. It has the values of the text, and so those of the cells that
are not left open, except for a product of sums without a one: then it is true everywhere, although
the text is false. -/
theorem eval_minimize_render (reachable : s.Reachable) (lettered : s.vars.Lettered)
    (preset : style ∈ Style.presets) (success : (s.withForm form).minimize = .ok m) :
    ∃ e t, Expression.parse (m.render style) = .ok e ∧ Expression.parse m.text = .ok t ∧
      ((form = .sop ∨ ∃ index, s.cell? index = some .one) → ∀ index < 2 ^ s.vars.size,
        e.eval (.ofIndex s.vars index) = t.eval (.ofIndex s.vars index) ∧
        (s.cell? index = some .one → e.eval (.ofIndex s.vars index) = .ok true) ∧
        (s.cell? index = some .zero → e.eval (.ofIndex s.vars index) = .ok false)) ∧
      (form = .pos → (∀ index, s.cell? index ≠ some .one) → ∀ index,
        e.eval (.ofIndex s.vars index) = .ok true ∧
        t.eval (.ofIndex s.vars index) = .ok false) := by
  obtain ⟨_, rfl⟩ := minimize_withForm_eq_ok_iff.mp success
  by_cases searched : form = .sop ∨ ∃ index, s.cell? index = some .one
  · obtain ⟨t, shown, cells⟩ := isShownBy_outcome reachable.sized lettered form
    obtain ⟨minterms, dontcares, same⟩ := exists_outcome_eq searched
    rw [same] at shown ⊢
    obtain ⟨e, rendered, values⟩ := Minimized.eval_render preset lettered lettered.narrow
    obtain ⟨t', parsed, textValues⟩ := Minimized.eval_text lettered lettered.narrow
    obtain rfl := Except.ok.inj (shown.symm.trans parsed)
    have equal (index : Nat) : e.eval (.ofIndex s.vars index) = t.eval (.ofIndex s.vars index) :=
      (values index).trans (textValues index).symm
    refine ⟨e, t, rendered, parsed, fun _ index inside => ?_, ?_⟩
    · rw [equal]
      exact ⟨rfl, cells index inside⟩
    · rintro rfl absent
      obtain ⟨index, one⟩ := searched.resolve_left nofun
      exact absurd one (absent index)
  · rw [not_or, not_exists] at searched
    obtain ⟨product, absent⟩ := searched
    obtain rfl : form = .pos := by
      cases form with
      | sop => exact absurd rfl product
      | pos => rfl
    rw [outcome_of_absent absent]
    refine ⟨_, _, Minimized.parse_render_ofConstant style s.vars false,
      Minimized.parse_text_ofConstant .pos s.vars false, ?_, fun _ _ _ => ⟨rfl, rfl⟩⟩
    rintro (sum | ⟨index, one⟩)
    · exact absurd sum product
    · exact absurd one (absent index)

theorem eval_minimize_render_equality :
    let s : Session := ⟨⟨['A', 'B']⟩, .sop, [.one, .zero, .zero, .one], .standard⟩
    let m := s.outcome .pos
    s.Reachable ∧ s.vars.Lettered ∧ .operators ∈ Style.presets ∧
    (s.withForm .pos).minimize = .ok m ∧
    ∃ e t, Expression.parse (m.render .operators) = .ok e ∧ Expression.parse m.text = .ok t ∧
      ((Form.pos = .sop ∨ ∃ index, s.cell? index = some .one) → ∀ index < 2 ^ s.vars.size,
        e.eval (.ofIndex s.vars index) = t.eval (.ofIndex s.vars index) ∧
        (s.cell? index = some .one → e.eval (.ofIndex s.vars index) = .ok true) ∧
        (s.cell? index = some .zero → e.eval (.ofIndex s.vars index) = .ok false)) ∧
      (Form.pos = .pos → (∀ index, s.cell? index ≠ some .one) → ∀ index,
        e.eval (.ofIndex s.vars index) = .ok true ∧
        t.eval (.ofIndex s.vars index) = .ok false) := by
  intro s m
  have loaded : ofTerms s.vars ⟨.ofList [0, 3], ∅⟩ s.limits = .ok s := rfl
  have preset : .operators ∈ Style.presets := by decide
  have success : (s.withForm .pos).minimize = .ok m := rfl
  exact ⟨.ofTerms loaded, by decide, preset, success,
    eval_minimize_render (.ofTerms loaded) (by decide) preset success⟩

/-- The function that is false everywhere as a product of sums: its text is 0, but it is written as 1
in the style of the text. -/
theorem render_blank_pos :
    let s : Session := ⟨⟨['A']⟩, .sop, [.zero, .zero], .standard⟩
    let m : Minimized := .ofConstant .pos s.vars false
    s.Reachable ∧ s.vars.Lettered ∧ (s.withForm .pos).minimize = .ok m ∧ s.cell? 0 = some .zero ∧
    m.text = "0" ∧ m.render .textbook = "1" ∧
    ¬ ∃ e, Expression.parse (m.render .textbook) = .ok e ∧ e.eval (.ofIndex s.vars 0) = .ok false := by
  intro s m
  have loaded : blank s.vars s.limits = .ok s := rfl
  refine ⟨.blank loaded, by decide, rfl, rfl, rfl, rfl, ?_⟩
  rintro ⟨e, parsed, evaluated⟩
  obtain rfl := Except.ok.inj ((Minimized.parse_render_ofConstant _ s.vars false).symm.trans parsed)
  cases evaluated

end Switching.Session
