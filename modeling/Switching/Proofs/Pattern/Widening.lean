import Switching.Proofs.Minterm.Projection
import Switching.Proofs.Pattern.Coverage

/-! # Patterns over more variables

A pattern over some variables is spread over more by leaving every other variable free. It then
covers the indices whose projections it covered before (`covered_spread`). When a set of terms is
lifted, its prime patterns are spread (`isPrime_lift_iff`): fixing an added variable only makes a
pattern smaller.
-/

namespace Switching.Pattern

open Minterm

variable {kept : List Bool} {p q : Pattern} {terms : IndexSet} {index : Nat}

/-- A prime pattern is a largest one within the terms. -/
theorem isPrime_iff_maximal (narrow : p.length < wordSize) :
    p.IsPrime terms ↔ p.covered ⊆ terms ∧ ∀ q : Pattern, q.length = p.length →
      q.covered ⊆ terms → p.covered ⊆ q.covered → q.covered ⊆ p.covered := by
  rw [IsPrime, within_iff narrow]
  refine and_congr_right fun _ => forall_congr' fun q => forall_congr' fun same => ?_
  have narrower : q.length < wordSize := same ▸ narrow
  rw [within_iff narrower]
  exact imp_congr_right fun _ => imp_congr
    (forall_congr' fun _ => imp_congr (covers_iff narrow) (covers_iff narrower))
    (forall_congr' fun _ => imp_congr (covers_iff narrower) (covers_iff narrow))

/-! ## What a spread pattern is like -/

theorem dashes_spread (fits : p.length = kept.count true) :
    dashes (spread none kept p) = kept.count false + p.dashes := by
  fun_induction spread none kept p with
  | case1 p => simp [dashes, List.eq_nil_of_length_eq_zero fits]
  | case2 kept p ih =>
    have tail := ih (by simpa using fits)
    simp only [dashes, List.count_cons_self] at tail ⊢
    omega
  | case3 kept => simp at fits
  | case4 kept x p ih =>
    have tail := ih (by simpa using fits)
    rw [List.count_cons_of_ne (by decide)]
    simp only [dashes, List.count_cons] at tail ⊢
    omega

theorem ones_spread (fits : p.length = kept.count true) :
    ones (spread none kept p) = p.ones := by
  fun_induction spread none kept p with
  | case1 p => simp [List.eq_nil_of_length_eq_zero fits]
  | case2 kept p ih => simpa [ones] using ih (by simpa using fits)
  | case3 kept => simp at fits
  | case4 kept x p ih =>
    have tail := ih (by simpa using fits)
    simp only [ones, List.count_cons] at tail ⊢
    omega

/-- Added variables do not matter to a spread pattern. -/
theorem mem_covered_spread (fits : p.length = kept.count true) (small : index < 2 ^ kept.length) :
    index ∈ covered (spread none kept p) ↔ project kept index ∈ p.covered := by
  induction kept generalizing p index with
  | nil =>
    obtain rfl := List.eq_nil_of_length_eq_zero fits
    obtain rfl := Nat.lt_one_iff.mp small
    exact Iff.rfl
  | cons keep kept ih =>
    obtain ⟨bit, rest, below, rfl⟩ := exists_highest_bit small
    have wide : (spread none kept p).length = kept.length := length_spread ..
    cases keep with
    | false =>
      have first : _ ∈ covered (none :: spread none kept p) ↔ (none = none ∨ none = some bit) ∧ _ :=
        mem_covered_cons (wide.symm ▸ below)
      rw [wide] at first
      rw [spread, first, project_false bit below, ih (by simpa using fits) below]
      simp
    | true =>
      obtain ⟨x, p, rfl⟩ := List.exists_cons_of_length_eq_add_one (by simpa using fits)
      have fits : p.length = kept.count true := by simpa using fits
      have wide : (spread none kept p).length = kept.length := length_spread ..
      have first : _ ∈ covered (x :: spread none kept p) ↔ (x = none ∨ x = some bit) ∧ _ :=
        mem_covered_cons (wide.symm ▸ below)
      have second : _ ∈ covered (x :: p) ↔ (x = none ∨ x = some bit) ∧ _ :=
        mem_covered_cons (fits.symm ▸ project_lt kept rest)
      rw [wide] at first
      rw [fits] at second
      rw [spread, first, project_true bit below, second, ih fits below]

theorem covered_spread (fits : p.length = kept.count true) :
    covered (spread none kept p) = lift kept p.covered := by
  ext index
  rw [mem_lift]
  constructor
  · intro member
    have small : index < 2 ^ kept.length := by simpa using lt_of_mem_covered member
    exact ⟨small, (mem_covered_spread fits small).mp member⟩
  · exact fun ⟨small, member⟩ => (mem_covered_spread fits small).mpr member

theorem lt_of_fits (fits : p.length = kept.count true) :
    ∀ index ∈ p.covered, index < 2 ^ kept.count true :=
  fun _ member => fits ▸ lt_of_mem_covered member

theorem covered_spread_subset (fits : p.length = kept.count true) :
    covered (spread none kept p) ⊆ lift kept terms ↔ p.covered ⊆ terms := by
  rw [covered_spread fits, lift_subset_lift (lt_of_fits fits)]

theorem covered_spread_mono (left : p.length = kept.count true) (right : q.length = kept.count true) :
    covered (spread none kept p) ⊆ covered (spread none kept q) ↔ p.covered ⊆ q.covered := by
  rw [covered_spread right, covered_spread_subset left]

/-! ## Dropping variables from a pattern -/

theorem exists_project_of_mem_pick (same : q.length = kept.length)
    (member : index ∈ covered (pick kept q)) : ∃ wide ∈ q.covered, project kept wide = index := by
  induction kept generalizing q index with
  | nil =>
    obtain rfl := List.eq_nil_of_length_eq_zero same
    obtain rfl := List.mem_singleton.mp member
    exact ⟨0, member, rfl⟩
  | cons keep kept ih =>
    obtain ⟨x, q, rfl⟩ := List.exists_cons_of_length_eq_add_one same
    have tail : q.length = kept.length := Nat.succ.inj same
    cases keep with
    | false =>
      obtain ⟨rest, covered, rfl⟩ := ih tail member
      have below := lt_of_mem_covered covered
      have allowed : x = none ∨ x = some (x.getD false) := by cases x <;> simp
      refine ⟨_, (mem_covered_cons below).mpr ⟨allowed, covered⟩, ?_⟩
      rw [tail] at below ⊢
      exact project_false _ below
    | true =>
      obtain ⟨bit, part, small, rfl⟩ := exists_highest_bit (lt_of_mem_covered member)
      obtain ⟨allowed, member⟩ := (mem_covered_cons small).mp member
      obtain ⟨rest, covered, rfl⟩ := ih tail member
      have below := lt_of_mem_covered covered
      refine ⟨_, (mem_covered_cons below).mpr ⟨allowed, covered⟩, ?_⟩
      rw [tail] at below ⊢
      rw [length_pick tail]
      exact project_true _ below

theorem project_mem_pick (same : q.length = kept.length) (member : index ∈ q.covered) :
    project kept index ∈ covered (pick kept q) := by
  induction kept generalizing q index with
  | nil =>
    obtain rfl := List.eq_nil_of_length_eq_zero same
    exact List.mem_singleton_self _
  | cons keep kept ih =>
    obtain ⟨x, q, rfl⟩ := List.exists_cons_of_length_eq_add_one same
    have tail : q.length = kept.length := Nat.succ.inj same
    obtain ⟨bit, rest, below, rfl⟩ := exists_highest_bit (lt_of_mem_covered member)
    obtain ⟨allowed, member⟩ := (mem_covered_cons below).mp member
    have image := ih tail member
    rw [tail] at below ⊢
    cases keep with
    | false =>
      rw [project_false bit below]
      exact image
    | true =>
      have whole := (mem_covered_cons (lt_of_mem_covered image)).mpr ⟨allowed, image⟩
      rw [length_pick tail] at whole
      rw [project_true bit below]
      exact whole

/-- Dropping the added variables of a pattern within the terms leaves it within them. -/
theorem covered_pick_subset (same : q.length = kept.length) (inside : q.covered ⊆ lift kept terms) :
    covered (pick kept q) ⊆ terms := by
  intro index member
  obtain ⟨wide, covered, rfl⟩ := exists_project_of_mem_pick same member
  exact (mem_lift.mp (inside _ covered)).2

theorem covered_subset_spread_pick (same : q.length = kept.length) :
    q.covered ⊆ covered (spread none kept (pick kept q)) := by
  rw [covered_spread (length_pick same)]
  intro index member
  exact mem_lift.mpr ⟨same ▸ lt_of_mem_covered member, project_mem_pick same member⟩

/-- The prime patterns of lifted terms are the prime ones over the old variables, spread. -/
theorem isPrime_lift_iff (narrow : kept.length < wordSize) (same : q.length = kept.length) :
    q.IsPrime (lift kept terms) ↔
      ∃ p : Pattern, p.length = kept.count true ∧ p.IsPrime terms ∧ q = spread none kept p := by
  have fewer : kept.count true < wordSize := Nat.lt_of_le_of_lt List.count_le_length narrow
  constructor
  · intro prime
    have fits : (pick kept q).length = kept.count true := length_pick same
    obtain ⟨inside, maximal⟩ := (isPrime_iff_maximal (same ▸ narrow)).mp prime
    have below := covered_subset_spread_pick same
    have part := covered_pick_subset same inside
    have above := maximal _ ((length_spread ..).trans same.symm) ((covered_spread_subset fits).mpr part)
      below
    have spelled := eq_of_covered (same.trans (length_spread ..).symm) below above
    refine ⟨pick kept q, fits, (isPrime_iff_maximal (fits ▸ fewer)).mpr ⟨part, ?_⟩, spelled⟩
    intro r length within larger
    have rFits : r.length = kept.count true := length.trans fits
    have image := maximal (spread none kept r) ((length_spread ..).trans same.symm)
      ((covered_spread_subset rFits).mpr within)
      (fun index member => (covered_spread_mono fits rFits).mpr larger index (below index member))
    exact (covered_spread_mono rFits fits).mp fun index member => below index (image index member)
  · rintro ⟨p, fits, prime, rfl⟩
    obtain ⟨inside, maximal⟩ := (isPrime_iff_maximal (fits ▸ fewer)).mp prime
    refine (isPrime_iff_maximal (same ▸ narrow)).mpr
      ⟨(covered_spread_subset fits).mpr inside, fun r length within larger => ?_⟩
    have rSame := length.trans same
    have rFits : (pick kept r).length = kept.count true := length_pick rSame
    have above : p.covered ⊆ covered (pick kept r) := (covered_spread_mono fits rFits).mp
      fun index member => covered_subset_spread_pick rSame index (larger index member)
    have below := maximal _ (rFits.trans fits.symm) (covered_pick_subset rSame within) above
    exact fun index member => (covered_spread_mono rFits fits).mpr below index
      (covered_subset_spread_pick rSame index member)

end Switching.Pattern
