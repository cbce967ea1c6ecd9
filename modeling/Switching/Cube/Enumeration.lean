import Mathlib.Data.Finset.Dedup
import Mathlib.Data.Finset.Filter
import Mathlib.Data.Finset.Lattice.Basic
import Mathlib.Data.Finset.Range
import Switching.Cube

/-! # The positions and the indices of a cube

A cube is put together from minterms and written patterns, and the positions that this fixes to each
value are followed on the way (`Cube.Built`). The indices that it covers arise from the one with just the
bits that are fixed to true, when the weights of the free positions are set one after the other
(`Pattern.expansion`).
-/

namespace Switching

open Minterm

namespace Pattern

/-- Some indices, and the same ones with a bit set. -/
def doubledBy (indices : List Nat) (weight : Nat) : List Nat :=
  indices ++ indices.map (weight ||| ·)

/-- The weights of the free positions, from the left. -/
def weights (p : Pattern) : List Nat :=
  (p.idxsOf none).map fun position => 1 <<< (p.length - 1 - position)

/-- The covered indices in the order in which they arise from doubling: the first one has just the bits
that are fixed to true, and each free position doubles the indices found so far. -/
def expansion (p : Pattern) : List Nat :=
  p.weights.foldl doubledBy [ofBits (p.map (· == some true))]

/-- The positions that are fixed to a value. -/
def positions (p : Pattern) (value : Bool) : Finset Nat :=
  (p.idxsOf (some value)).toFinset

end Pattern

namespace Cube

/-- A cube that is put together from minterms and written patterns, with the positions that this fixes to
each value: those where the minterm has it or the word shows it, and of a merged cube those that are
fixed in both parts. -/
inductive Built : Cube → (Bool → Finset Nat) → Prop where
  | ofMinterm (index width : Nat) :
      Built (ofMinterm index width) fun value =>
        (Finset.range width).filter (bitAt index width · = value)
  | ofString {text : String} {word : List Char} {c : Cube}
      (stripped : word = text.toList.filter (!isGap ·)) (read : ofString text = .ok c) :
      Built c fun value => (Finset.range word.length).filter (word[·]? = some (Text.bit value))
  | combine {a b c : Cube} {first second : Bool → Finset Nat} (left : Built a first)
      (right : Built b second) (success : a.combine? b = some c) :
      Built c fun value => first value ∩ second value

end Cube

end Switching
