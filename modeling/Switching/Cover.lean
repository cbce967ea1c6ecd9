import Switching.Chart

/-! # Selecting a cover

The essential cubes are part of every cover. As long as a minterm of the chart is not covered, the
cube that covers most of the remaining ones is added, the first one in the list if there are
several (`select`). `Greedy` states this policy for any choice of cubes, in terms of the minterms that the
cubes miss. What a cube covers is told by a test.
-/

namespace Switching.Cover

variable (covers : Cube → Nat → Bool) (cubes : CubeList)

/-- The minterms that none of the cubes at the chosen positions covers. -/
def uncovered (chosen minterms : List Nat) : List Nat :=
  minterms.filter fun m => !chosen.any fun position => (cubes.get? position).any (covers · m)

/-- Of two positions with the number of minterms that each covers, the second one if it covers
strictly more. -/
def better (best : Option (Nat × Nat)) (candidate : Nat × Nat) : Option (Nat × Nat) :=
  if (best.elim 0 (·.2)) < candidate.2 then some candidate else best

/-- The position of the cube to be added: the first of those that cover most of the remaining
minterms. There is none if no cube that is not chosen yet covers any of them. -/
def next? (chosen remaining : List Nat) : Option Nat :=
  let candidates := cubes.toList.zipIdx.filter (·.2 ∉ chosen)
  let counted := candidates.map fun entry => (entry.2, remaining.countP (covers entry.1))
  (counted.foldl better none).map (·.1)

/-- Add cubes until nothing remains or nothing helps, at most `bound` of them. -/
def complete : Nat → List Nat → List Nat → List Nat
  | 0, chosen, _ => chosen
  | bound + 1, chosen, remaining =>
    match next? covers cubes chosen remaining with
    | none => chosen
    | some position =>
      complete bound (chosen ++ [position]) (uncovered covers cubes [position] remaining)

/-- The positions of a cover of a chart: its essential cubes, then the cubes that were added. Each
addition covers a minterm that remains, so that the number of these bounds the additions. -/
def select (chart : Chart) : List Nat :=
  let remaining := uncovered covers cubes chart.essentials chart.minterms
  complete covers cubes remaining.length chart.essentials remaining

/-- The minterms that every cube at the chosen positions misses. -/
def missed (chosen minterms : List Nat) : List Nat :=
  minterms.filter fun m => chosen.all fun position => (cubes.get? position).all (!covers · m)

/-- A cube that may be added: the first one, among those not chosen, that cover most of what
remains. -/
def IsNext (chosen remaining : List Nat) (position : Nat) : Prop :=
  position ∉ chosen ∧ ∃ c, cubes.get? position = some c ∧ 0 < remaining.countP (covers c) ∧
    ∀ other d, cubes.get? other = some d → other ∉ chosen →
      remaining.countP (covers d) < remaining.countP (covers c) ∨
        remaining.countP (covers d) = remaining.countP (covers c) ∧ position ≤ other

/-- The cubes chosen and the minterms that remain at the turns of a selection. -/
inductive Reaches (chosen remaining : List Nat) : List Nat → List Nat → Prop where
  /-- The selection starts with the essential cubes. -/
  | start : Reaches chosen remaining chosen remaining
  /-- At each turn a cube is added. -/
  | add {picked left : List Nat} {position : Nat} :
      Reaches chosen remaining picked left → next? covers cubes picked left = some position →
      Reaches chosen remaining (picked ++ [position]) (uncovered covers cubes [position] left)

/-- A choice of cubes that keeps to the policy: the essential cubes, followed by the best addition at
each turn until no required minterm is left. -/
structure Greedy (essentials required chosen : List Nat) : Prop where
  /-- The essential cubes come first. -/
  essentials_prefix : essentials <+: chosen
  /-- Each cube after them is the first of those, among the cubes not chosen before, that cover most of
  what the earlier ones leave, and at least one minterm of it. -/
  isNext : ∀ turn position, essentials.length ≤ turn → chosen[turn]? = some position →
    IsNext covers cubes (chosen.take turn) (missed covers cubes (chosen.take turn) required) position
  /-- The turns end when nothing is left, not before and not later. -/
  ends : ∀ turn, essentials.length ≤ turn →
    (missed covers cubes (chosen.take turn) required = [] ↔ chosen.length ≤ turn)
  /-- The selection never finds that minterms are left and no cube covers any. -/
  never_stuck : ∀ picked remaining,
    Reaches covers cubes essentials (missed covers cubes essentials required) picked remaining →
      remaining ≠ [] → next? covers cubes picked remaining ≠ none
  /-- No cube is chosen twice. -/
  nodup : chosen.Nodup
  /-- Each cube covers a required minterm that the earlier ones do not cover. -/
  covers_new : ∀ turn position, chosen[turn]? = some position → ∃ c, cubes.get? position = some c ∧
    ∃ index ∈ missed covers cubes (chosen.take turn) required, covers c index = true
  /-- There are no more cubes than required minterms. -/
  length_le : chosen.length ≤ required.length

end Switching.Cover
