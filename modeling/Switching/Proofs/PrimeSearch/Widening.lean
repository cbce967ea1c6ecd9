import Switching.Proofs.Pattern.Widening
import Switching.Proofs.PrimeSearch.Order

/-! # Primes over more variables

Adding variables on which the terms do not depend changes neither which primes there are nor their
order: the primes of the lifted terms are those of the terms, each spread over all variables
(`widens_primes`). The order is kept because the first index that makes a difference between two
patterns is embedded into the first one between the spread patterns.
-/

namespace Switching

open Minterm

variable {kept : List Bool} {terms : IndexSet} {index : Nat}

namespace Pattern

variable {p q : Pattern}

theorem Leads.spread (leads : p.Leads q) (left : p.length = kept.count true)
    (right : q.length = kept.count true) :
    Leads (Switching.spread none kept p) (Switching.spread none kept q) := by
  obtain ⟨index, inside, outside, below⟩ := leads
  have small := lt_of_fits left index inside
  rw [Leads, covered_spread left, covered_spread right]
  refine ⟨embed kept index, (embed_mem_lift small).mpr inside, mt (embed_mem_lift small).mp outside,
    fun lower less => ?_⟩
  rw [mem_lift, mem_lift]
  refine and_congr_right fun wide => below _ ?_
  by_contra reached
  exact Nat.lt_irrefl lower (less.trans_le (embed_le small wide (Nat.not_lt.mp reached)))

theorem Precedes.spread (precedes : p.Precedes q) (left : p.length = kept.count true)
    (right : q.length = kept.count true) :
    Precedes (Switching.spread none kept p) (Switching.spread none kept q) := by
  rw [Precedes, dashes_spread left, dashes_spread right, ones_spread left, ones_spread right]
  rcases precedes with fewer | ⟨dashes, fewer | ⟨ones, leads⟩⟩
  · exact .inl (Nat.add_lt_add_left fewer _)
  · exact .inr ⟨congrArg _ dashes, .inl fewer⟩
  · exact .inr ⟨congrArg _ dashes, .inr ⟨ones, leads.spread left right⟩⟩

end Pattern

namespace Cube

/-- The cube over all variables that leaves the added ones free. -/
def widen (kept : List Bool) (c : Cube) : Cube :=
  .ofPattern (spread none kept c.pattern)

theorem covers_widen {c : Cube} (narrow : kept.length < wordSize) (fits : c.width = kept.count true)
    (small : index < 2 ^ kept.length) : (c.widen kept).covers index = c.covers (project kept index) := by
  have fewer : kept.count true < wordSize := Nat.lt_of_le_of_lt List.count_le_length narrow
  have length : c.pattern.length = kept.count true := fits
  have wide : (spread none kept c.pattern).length = kept.length := length_spread ..
  rw [Bool.eq_iff_iff]
  calc
    Pattern.covers (spread none kept c.pattern) index = true
      ↔ index ∈ Pattern.covered (spread none kept c.pattern) := Pattern.covers_iff (wide ▸ narrow)
    _ ↔ project kept index ∈ c.pattern.covered := Pattern.mem_covered_spread length small
    _ ↔ c.covers (project kept index) = true := (Pattern.covers_iff (length ▸ fewer)).symm

end Cube

/-- The same cubes in the same order, over more variables. -/
structure CubeList.Widens (kept : List Bool) (few wide : CubeList) : Prop where
  width_eq : ∀ c ∈ few, c.width = kept.count true
  toList_eq : wide.toList = few.toList.map (Cube.widen kept)

/-- The primes of lifted terms are those of the terms, in the same order. -/
theorem PrimeSearch.widens_primes (inside : ∀ t ∈ terms, t < 2 ^ kept.count true)
    (narrow : kept.length < wordSize) :
    CubeList.Widens kept (primes terms (kept.count true)) (primes (lift kept terms) kept.length) := by
  have fewer : kept.count true < wordSize := Nat.lt_of_le_of_lt List.count_le_length narrow
  have lifted : ∀ t ∈ lift kept terms, t < 2 ^ kept.length := fun _ member => (mem_lift.mp member).1
  have width : ∀ c ∈ primes terms (kept.count true), c.width = kept.count true := by
    intro c member
    obtain ⟨p, length, _, rfl⟩ := (mem_primes inside fewer).mp member
    exact length
  refine ⟨width, eq_of_precedes (sorted_primes lifted) ?_ fun c => ?_⟩
  · rw [List.pairwise_map]
    refine (sorted_primes inside).imp_of_mem fun left right precedes => ?_
    exact precedes.spread (width _ left) (width _ right)
  · change c ∈ primes _ _ ↔ _
    rw [mem_primes lifted narrow, List.mem_map]
    constructor
    · rintro ⟨q, length, prime, rfl⟩
      obtain ⟨p, fits, maximal, rfl⟩ := (Pattern.isPrime_lift_iff narrow length).mp prime
      exact ⟨.ofPattern p, (mem_primes inside fewer).mpr ⟨p, fits, maximal, rfl⟩, rfl⟩
    · rintro ⟨d, member, rfl⟩
      obtain ⟨p, fits, prime, rfl⟩ := (mem_primes inside fewer).mp member
      have wide : (spread none kept p).length = kept.length := length_spread ..
      exact ⟨_, wide, (Pattern.isPrime_lift_iff narrow wide).mpr ⟨p, fits, prime, rfl⟩, rfl⟩

end Switching
