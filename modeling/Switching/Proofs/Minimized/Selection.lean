import Switching.Proofs.Cover.Turns
import Switching.Proofs.Minimized.Word

/-! # How a cover is selected

The essential primes come first. Then at each turn the prime is added that covers most of the required
minterms that are left, the first one in the list if there are several, until nothing is left
(`chosen_minimizeBy?_greedy`). For this it is enough that the primes cover every term, which they do over any
number of variables.
-/

namespace Switching.Minimized

open Minterm

variable {minterms dontcares : IndexSet} {vars : Variables}

theorem required_eq (words : ∀ t ∈ minterms ∪ dontcares, t < 2 ^ wordSize) :
    required minterms dontcares vars = (minterms.diff dontcares).filter (· < 2 ^ vars.size) :=
  IndexSet.Ranged.filter_inRange
    (.of_words fun t member => words t (IndexSet.mem_union.mpr (.inl (IndexSet.mem_diff.mp member).1)))

/-- The chosen primes are the essential ones, followed by what is the best addition at each turn: the
first of the primes, among those not chosen yet, that cover most of the required minterms that are left,
and at least one of them. The turns end when nothing is left, and never because nothing helps. So the
chosen primes are distinct, each covers a required minterm that the earlier ones do not cover, and
there are no more of them than required minterms. This holds of every outcome. There is one up to as many
variables as a word has bits, namely the outcome for numbers, and over any number of variables if the shifts
wrap or there are no terms. -/
theorem chosen_minimizeBy?_greedy (shift : Shift) (minterms dontcares : IndexSet) (vars : Variables)
    (form : Form) (words : ∀ t ∈ minterms ∪ dontcares, t < 2 ^ wordSize) :
    ((minimizeBy? shift minterms dontcares vars form).isSome = true ↔
      shift = .wrapping ∨ vars.size ≤ wordSize ∨ minterms ∪ dontcares = ∅) ∧
    (vars.size ≤ wordSize →
      minimizeBy? shift minterms dontcares vars form = some (minimize minterms dontcares vars form)) ∧
    ∀ m, minimizeBy? shift minterms dontcares vars form = some m →
      Cover.Greedy (Cube.coversBy shift) m.primes m.essentials
        ((minterms.diff dontcares).filter (· < 2 ^ vars.size)).toList m.chosen := by
  refine ⟨isSome_minimizeBy?_iff words form, minimizeBy?_of_narrow words shift form, fun m found => ?_⟩
  obtain ⟨primes, primesOf, rfl⟩ := exists_primesOf words found
  rw [← required_eq words]
  refine Cover.greedy_select fun index member => ?_
  exact primesOf.exists_covering (word_of_mem_terms words) (inside_of_mem_terms words)
    (mem_terms_of_required member)

/-- Over 65 variables the first one reads the bit of the last one again, so that the first two terms are not
merged. -/
theorem chosen_minimizeBy?_greedy_wide :
    let minterms := IndexSet.ofList [2, 6, 14, 22, 30]
    let dontcares := IndexSet.ofList [0, 1, 4, 10]
    let vars : Variables := ⟨(List.range 65).map fun place => Char.ofNat (33 + place)⟩
    (∀ t ∈ minterms ∪ dontcares, t < 2 ^ wordSize) ∧
    minimizeBy? .checked minterms dontcares vars .sop = none ∧
    ∃ m, minimizeBy? .wrapping minterms dontcares vars .sop = some m ∧
      m.essentials = [3] ∧ m.chosen = [3, 1] ∧
      Cover.Greedy (Cube.coversBy .wrapping) m.primes m.essentials
        ((minterms.diff dontcares).filter (· < 2 ^ vars.size)).toList m.chosen := by
  intro minterms dontcares vars
  have words : ∀ t ∈ minterms ∪ dontcares, t < 2 ^ wordSize := by decide
  obtain ⟨refused, _, _⟩ := chosen_minimizeBy?_greedy .checked minterms dontcares vars .sop words
  obtain ⟨exists_iff, _, greedy⟩ := chosen_minimizeBy?_greedy .wrapping minterms dontcares vars .sop words
  obtain ⟨m, found⟩ := Option.isSome_iff_exists.mp (exists_iff.mpr (.inl rfl))
  have outcome : (minimizeBy? .wrapping minterms dontcares vars .sop).map
      (fun m => (m.essentials, m.chosen)) = some ([3], [3, 1]) := by decide +kernel
  rw [found, Option.map_some, Option.some.injEq, Prod.mk.injEq] at outcome
  refine ⟨words, Option.not_isSome_iff_eq_none.mp (mt refused.mp (by decide +kernel)), m, found,
    outcome.1, outcome.2, greedy m found⟩

end Switching.Minimized
