import Switching.Proofs.Minimized.Value
import Switching.Proofs.Session.Size

/-! # Minimized sessions

The text of a minimized session is an expression with the value of each cell that is not left open,
whichever way the session was reached and whichever form was chosen.
-/

namespace Switching.Session

variable {s : Session} {m : Minimized} {index : Nat}

theorem mem_indicesOf {value : Cell} : index ∈ s.indicesOf value ↔ s.cell? index = some value := by
  rw [indicesOf, IndexSet.mem_filter, IndexSet.mem_range, beq_iff_eq, cell?, and_iff_right_iff_imp]
  exact fun found => (List.getElem?_eq_some_iff.mp found).1

theorem not_mem_indicesOf {value other : Cell} (found : s.cell? index = some value)
    (different : value ≠ other) : index ∉ s.indicesOf other := fun member =>
  different (Option.some.inj (found.symm.trans (mem_indicesOf.mp member)))

theorem isEmpty_minterms_iff :
    s.terms.minterms.isEmpty = true ↔ ∀ index, s.cell? index ≠ some .one := by
  rw [IndexSet.isEmpty, List.isEmpty_iff, List.eq_nil_iff_forall_not_mem]
  exact forall_congr' fun index => not_congr mem_indicesOf

/-- What a session is minimized to in a form, if it keeps to its limit. -/
def outcome (s : Session) : Form → Minimized
  | .sop => Switching.minimize s.terms.minterms s.terms.dontcares s.vars .sop
  | .pos =>
    if s.terms.minterms.isEmpty then .ofConstant .pos s.vars false
    else Switching.minimize (s.terms.complement s.vars.size) s.terms.dontcares s.vars .pos

theorem minimize_eq (s : Session) : s.minimize =
    Limits.check s.vars.size s.limits.minimize >>= fun _ => .ok (s.outcome s.form) := by
  obtain ⟨vars, form, cells, limits⟩ := s
  cases form with
  | sop => rfl
  | pos =>
    refine congrArg _ (funext fun _ => ?_)
    simp only [outcome]
    split <;> rfl

theorem minimize_eq_ok_iff :
    s.minimize = .ok m ↔ s.vars.size ≤ s.limits.minimize ∧ m = s.outcome s.form := by
  rw [minimize_eq, bind_eq_ok_iff]
  constructor
  · rintro ⟨_, fits, same⟩
    exact ⟨Limits.check_eq_ok_iff.mp fits, (Except.ok.inj same).symm⟩
  · rintro ⟨fits, rfl⟩
    exact ⟨(), Limits.check_eq_ok_iff.mpr fits, rfl⟩

theorem minimize_withForm_eq_ok_iff {form : Form} : (s.withForm form).minimize = .ok m ↔
    s.vars.size ≤ s.limits.minimize ∧ m = s.outcome form := by
  have same : (s.withForm form).outcome form = s.outcome form := by cases form <;> rfl
  rw [← same]
  exact minimize_eq_ok_iff

/-- The text is an expression with the value of each cell that is not left open. -/
def IsShownBy (s : Session) (m : Minimized) : Prop :=
  ∃ e, Expression.parse m.text = .ok e ∧ ∀ index < 2 ^ s.vars.size,
    (s.cell? index = some .one → e.eval (.ofIndex s.vars index) = .ok true) ∧
    (s.cell? index = some .zero → e.eval (.ofIndex s.vars index) = .ok false)

theorem isShownBy_sop (lettered : s.vars.Lettered) (narrow : s.vars.size < Minterm.wordSize) :
    s.IsShownBy (Switching.minimize s.terms.minterms s.terms.dontcares s.vars .sop) := by
  obtain ⟨e, parsed, values⟩ := Minimized.eval_text lettered narrow
  refine ⟨e, parsed, fun index inside => ⟨fun one => ?_, fun zero => ?_⟩⟩
  · have term : index ∈ s.terms.minterms := mem_indicesOf.mpr one
    have required : index ∉ s.terms.dontcares := not_mem_indicesOf one (by decide)
    have value := Minimized.value_of_required .sop narrow term required inside nofun
    rw [values, value]
    rfl
  · have absent : index ∉ s.terms.minterms := not_mem_indicesOf zero (by decide)
    have closed : index ∉ s.terms.dontcares := not_mem_indicesOf zero (by decide)
    rw [values, Minimized.value_of_absent .sop narrow absent closed inside]
    rfl

theorem isShownBy_pos (lettered : s.vars.Lettered) (narrow : s.vars.size < Minterm.wordSize)
    {other : Nat} (small : other < 2 ^ s.vars.size) (one : s.cell? other = some .one) :
    s.IsShownBy
      (Switching.minimize (s.terms.complement s.vars.size) s.terms.dontcares s.vars .pos) := by
  have covered {index : Nat} (one : s.cell? index = some .one) :
      index ∉ s.terms.complement s.vars.size ∧ index ∉ s.terms.dontcares := by
    refine ⟨fun member => ?_, not_mem_indicesOf one (by decide)⟩
    exact (TermList.mem_complement.mp member).2.1 (mem_indicesOf.mpr one)
  obtain ⟨e, parsed, values⟩ := Minimized.eval_text lettered narrow
  refine ⟨e, parsed, fun index inside => ⟨fun one => ?_, fun zero => ?_⟩⟩
  · rw [values, Minimized.value_of_absent .pos narrow (covered one).1 (covered one).2 inside]
    rfl
  · have required : index ∉ s.terms.dontcares := not_mem_indicesOf zero (by decide)
    have term : index ∈ s.terms.complement s.vars.size :=
      TermList.mem_complement.mpr
        ⟨Minterm.count_eq _ ▸ inside, not_mem_indicesOf zero (by decide), required⟩
    rw [values, Minimized.value_of_required .pos narrow term required inside
      fun _ => ⟨other, small, covered one⟩]
    rfl

theorem isShownBy_ofConstant (absent : ∀ index, s.cell? index ≠ some .one) :
    s.IsShownBy (.ofConstant .pos s.vars false) :=
  ⟨_, Minimized.parse_text_ofConstant .pos s.vars false, fun index _ =>
    ⟨fun one => absurd one (absent index), fun _ => rfl⟩⟩

theorem isShownBy_outcome (sized : s.Sized) (lettered : s.vars.Lettered) (form : Form) :
    s.IsShownBy (s.outcome form) := by
  have narrow := lettered.narrow
  cases form with
  | sop => exact isShownBy_sop lettered narrow
  | pos =>
    rw [outcome]
    split
    · next empty => exact isShownBy_ofConstant (isEmpty_minterms_iff.mp empty)
    · next nonempty =>
      obtain ⟨other, one⟩ := not_forall_not.mp (mt isEmpty_minterms_iff.mpr nonempty)
      exact isShownBy_pos lettered narrow (sized.lt_of_cell? one) one

/-- However a session over distinct letters was reached, the text of its minimization in either form
is an expression that is true where the session has a one and false where it has a zero. -/
theorem eval_minimize_text (reachable : s.Reachable) (lettered : s.vars.Lettered) (form : Form)
    (success : (s.withForm form).minimize = .ok m) :
    ∃ e, Expression.parse m.text = .ok e ∧ ∀ index < 2 ^ s.vars.size,
      (s.cell? index = some .one → e.eval (.ofIndex s.vars index) = .ok true) ∧
      (s.cell? index = some .zero → e.eval (.ofIndex s.vars index) = .ok false) := by
  have narrow := Variables.size_lt_wordSize lettered.1
    fun name listed => isAlpha_of_isUpper (lettered.2 name listed)
  rw [minimize] at success
  obtain ⟨_, _, success⟩ := bind_eq_ok_iff.mp success
  cases form with
  | sop =>
    cases success
    exact isShownBy_sop lettered narrow
  | pos =>
    change (if s.terms.minterms.isEmpty then _ else _) = _ at success
    split at success
    · next empty =>
      cases success
      apply isShownBy_ofConstant
      intro index one
      have member : index ∈ s.terms.minterms.toList := mem_indicesOf.mpr one
      rw [List.isEmpty_iff.mp empty] at member
      exact List.not_mem_nil member
    · next nonempty =>
      cases success
      obtain ⟨other, member⟩ := List.exists_mem_of_ne_nil _ (mt List.isEmpty_iff.mpr nonempty)
      have one := mem_indicesOf.mp member
      have small := (List.getElem?_eq_some_iff.mp one).1
      rw [reachable.sized.length_cells] at small
      exact isShownBy_pos lettered narrow small one

theorem eval_minimize_text_toggled :
    let s : Session := ⟨⟨['A', 'B']⟩, .sop, [.one, .zero, .dontCare, .one], .standard⟩
    let m := Switching.minimize (s.terms.complement 2) s.terms.dontcares s.vars .pos
    s.Reachable ∧ s.vars.Lettered ∧ (s.withForm .pos).minimize = .ok m ∧
    ∃ e, Expression.parse m.text = .ok e ∧ ∀ index < 2 ^ s.vars.size,
      (s.cell? index = some .one → e.eval (.ofIndex s.vars index) = .ok true) ∧
      (s.cell? index = some .zero → e.eval (.ofIndex s.vars index) = .ok false) := by
  intro s m
  let start : Session := ⟨⟨['A', 'B']⟩, .sop, [.one, .zero, .one, .one], .standard⟩
  have loaded : ofTerms start.vars ⟨.ofList [0, 2, 3], ∅⟩ start.limits = .ok start := rfl
  have toggled : start.apply (.toggle 2) = .ok s := rfl
  have reachable : s.Reachable := .edit (.ofTerms loaded) toggled
  exact ⟨reachable, by decide, rfl, eval_minimize_text reachable (by decide) .pos rfl⟩

end Switching.Session
