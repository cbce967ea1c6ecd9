import Switching.Proofs.Cover.Widening
import Switching.Proofs.Form.Widening
import Switching.Proofs.Minimized

/-! # Minimizing over more variables

Variables on which a function does not depend leave no trace in its minimization: there are the same
primes in the same order, free at the added variables, the same positions are essential and chosen, and
the text is the same (`widens_minimize`).
-/

namespace Switching.Minimized

open Minterm

variable {kept : List Bool} {vars wide : Variables} {minterms dontcares : IndexSet} {form : Form}

/-- The variables of a longer list at the positions that are kept. -/
structure Keeps (kept : List Bool) (wide vars : Variables) : Prop where
  size_eq : wide.size = kept.length
  names_eq : pick kept wide.names = vars.names
  narrow : kept.length < wordSize

namespace Keeps

variable (keeps : Keeps kept wide vars)

include keeps

theorem size_vars : vars.size = kept.count true := by
  rw [Variables.size, ← keeps.names_eq]
  exact length_pick keeps.size_eq

theorem narrow_vars : vars.size < wordSize :=
  keeps.size_vars ▸ Nat.lt_of_le_of_lt List.count_le_length keeps.narrow

theorem narrow_wide : wide.size < wordSize :=
  keeps.size_eq ▸ keeps.narrow

end Keeps

section Lift

variable (keeps : Keeps kept wide vars)

include keeps

/-- Lifting commutes with leaving out what is no minterm over the variables. -/
theorem filter_lift {lifted few : IndexSet}
    (same : ∀ index < 2 ^ kept.length, index ∈ lifted ↔ project kept index ∈ few) :
    lifted.filter (inRange · wide.size) = lift kept (few.filter (inRange · vars.size)) := by
  ext index
  rw [IndexSet.mem_filter, mem_lift, IndexSet.mem_filter, inRange_iff keeps.narrow_wide,
    inRange_iff keeps.narrow_vars, keeps.size_eq, keeps.size_vars]
  constructor
  · rintro ⟨member, small⟩
    exact ⟨small, (same index small).mp member, project_lt kept index⟩
  · rintro ⟨small, member, _⟩
    exact ⟨(same index small).mpr member, small⟩

theorem lt_of_mem_filter (few : IndexSet) :
    ∀ index ∈ few.filter (inRange · vars.size), index < 2 ^ kept.count true := by
  intro index member
  rw [← keeps.size_vars]
  exact (inRange_iff keeps.narrow_vars).mp (IndexSet.mem_filter.mp member).2

theorem widens_primes (minterms dontcares : IndexSet) (form : Form) :
    (minimize minterms dontcares vars form).primes.Widens kept
      (minimize (lift kept minterms) (lift kept dontcares) wide form).primes := by
  have terms : (lift kept minterms ∪ lift kept dontcares).filter (inRange · wide.size) =
      lift kept ((minterms ∪ dontcares).filter (inRange · vars.size)) := by
    apply filter_lift keeps
    intro index small
    simp only [IndexSet.mem_union, mem_lift, small, true_and]
  rw [primes_minimize, primes_minimize, terms, keeps.size_eq, keeps.size_vars]
  have inside := lt_of_mem_filter keeps (minterms ∪ dontcares)
  rw [keeps.size_vars] at inside
  exact PrimeSearch.widens_primes inside keeps.narrow

theorem required_lift :
    ((lift kept minterms).diff (lift kept dontcares)).filter (inRange · wide.size) =
      lift kept ((minterms.diff dontcares).filter (inRange · vars.size)) := by
  apply filter_lift keeps
  intro index small
  simp only [IndexSet.mem_diff, mem_lift, small, true_and]

theorem essentials_lift :
    (minimize (lift kept minterms) (lift kept dontcares) wide form).essentials =
      (minimize minterms dontcares vars form).essentials := by
  have widens := widens_primes keeps minterms dontcares form
  simp only [essentials_minimize, chart_minimize]
  rw [required_lift keeps]
  exact Chart.essentials_widen widens keeps.narrow (lt_of_mem_filter keeps _)

theorem chosen_lift :
    (minimize (lift kept minterms) (lift kept dontcares) wide form).chosen =
      (minimize minterms dontcares vars form).chosen := by
  have widens := widens_primes keeps minterms dontcares form
  have few := run_chosen minterms dontcares form (.of_narrow keeps.narrow_vars)
  have many := run_chosen (lift kept minterms) (lift kept dontcares) form (.of_narrow keeps.narrow_wide)
  have scaled := Cover.scaled_lift (lt_of_mem_filter keeps (minterms.diff dontcares))
  dsimp only at few many
  rw [minterms_chart] at few
  rw [minterms_chart, required_lift keeps, essentials_lift keeps] at many
  exact many.unique (few.widen (scaled.uncovered widens keeps.narrow _) widens keeps.narrow)

theorem cover_lift :
    (minimize (lift kept minterms) (lift kept dontcares) wide form).cover =
      (minimize minterms dontcares vars form).cover.map (Cube.widen kept) := by
  have widens := widens_primes keeps minterms dontcares form
  calc
    (minimize (lift kept minterms) (lift kept dontcares) wide form).cover
      = (minimize (lift kept minterms) (lift kept dontcares) wide form).chosen.filterMap
          (minimize (lift kept minterms) (lift kept dontcares) wide form).primes.get? := cover_minimize
    _ = (minimize minterms dontcares vars form).chosen.filterMap fun position =>
          ((minimize minterms dontcares vars form).primes.get? position).map (Cube.widen kept) := by
      rw [chosen_lift keeps, funext widens.get?_eq]
    _ = (minimize minterms dontcares vars form).cover.map (Cube.widen kept) := by
      rw [cover_minimize, List.map_filterMap]

/-- Added variables are not written. -/
theorem text_lift :
    (minimize (lift kept minterms) (lift kept dontcares) wide form).text =
      (minimize minterms dontcares vars form).text := by
  have widens := widens_primes keeps minterms dontcares form
  have fits : ∀ c ∈ (minimize minterms dontcares vars form).cover, c.width = kept.count true :=
    fun c member => widens.width_eq c (mem_primes_of_mem_cover member)
  simp only [text_minimize, render_minimize]
  rw [cover_lift keeps, Style.render, Style.render,
    Form.pieces_widen form keeps.size_eq keeps.names_eq fits]

end Lift

/-- The same outcome over more variables. -/
structure Widens (kept : List Bool) (few wide : Minimized) : Prop where
  text_eq : wide.text = few.text
  primes_eq : wide.primes.toList = few.primes.toList.map (Cube.widen kept)
  essentials_eq : wide.essentials = few.essentials
  chosen_eq : wide.chosen = few.chosen

theorem widens_minimize (keeps : Keeps kept wide vars) (minterms dontcares : IndexSet) (form : Form) :
    (minimize minterms dontcares vars form).Widens kept
      (minimize (lift kept minterms) (lift kept dontcares) wide form) where
  text_eq := text_lift keeps
  primes_eq := (widens_primes keeps minterms dontcares form).toList_eq
  essentials_eq := essentials_lift keeps
  chosen_eq := chosen_lift keeps

theorem widens_ofConstant (kept : List Bool) (form : Form) (vars wide : Variables) (value : Bool) :
    (ofConstant form vars value).Widens kept (ofConstant form wide value) :=
  ⟨rfl, rfl, rfl, rfl⟩

end Switching.Minimized
