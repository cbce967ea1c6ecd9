import Mathlib
import Switching.Cube.Word

/-! # Keys by which primes are ordered

A cube is compared with others by the number of its free positions and of its positions fixed to true, and
then by what tells it apart from those with as many of both: the smallest index that it covers, and the weights
of its free positions in an index.
-/

namespace Switching

namespace Pattern

/-- The smallest covered index. -/
def lowest (p : Pattern) : Nat :=
  p.coveredList.headD 0

/-- The weights that the free positions have in an index, in increasing order. -/
def freeWeights (p : Pattern) : List Nat :=
  ((p.idxsOf none).map fun position => 2 ^ (p.length - 1 - position)).reverse

/-- The number of free positions, the number of positions fixed to true, the smallest covered index and
the weights of the free positions. Keys are compared in this order. -/
def key (p : Pattern) : Nat ×ₗ Nat ×ₗ Nat ×ₗ List Nat :=
  toLex (p.dashes, toLex (p.ones, toLex (p.lowest, p.freeWeights)))

end Pattern

namespace Cube

open Minterm

/-- The words that a cube covers. -/
def wordsBy (shift : Shift) (c : Cube) : Set Nat :=
  {index | index < 2 ^ wordSize ∧ c.coversBy shift index = true}

/-- The key of a cube among cubes of words, with the smallest word that it covers. -/
noncomputable def keyBy (shift : Shift) (c : Cube) : Nat ×ₗ Nat ×ₗ Nat ×ₗ List Nat :=
  toLex (c.pattern.dashes, toLex (c.pattern.ones, toLex (sInf (c.wordsBy shift), c.pattern.freeWeights)))

end Cube

end Switching
