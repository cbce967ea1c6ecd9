import Switching.CubeList

/-! # The search for prime cubes

The minterms of a function are merged in rounds. The cubes of a round are kept in groups by the
number of positions that are fixed to true; since two cubes that can be merged differ in that number
by one, only neighbouring groups are compared. A cube that cannot be merged is prime.

The free positions of a cube can be freed in any order. Only the order from right to left is
followed in building the next round, so that every cube is found once, in the order of the smallest
index that it covers. A round has one group less than the one before it, so that there are at most
as many rounds as groups to begin with.
-/

namespace Switching.PrimeSearch

/-- The cubes of a round: the group at position `k` holds cubes with `k` positions fixed to true. -/
abbrev Groups := List (List Cube)

/-- The groups of the first round, where every minterm is a cube of its own. -/
def start (terms : IndexSet) (width : Nat) : Groups :=
  let cubes := terms.toList.map (Cube.ofMinterm · width)
  (List.range (width + 1)).map fun ones => cubes.filter (·.pattern.ones == ones)

/-- The cubes that arise from merging a cube of one group with a cube of the next. -/
def mergeGroups (low high : List Cube) : List Cube :=
  low.flatMap fun a => high.filterMap a.combineLeading?

/-- The groups of the next round. -/
def advance : Groups → Groups
  | low :: high :: rest => mergeGroups low high :: advance (high :: rest)
  | _ => []

/-- The cubes that cannot be merged with a cube of a neighbouring group, `below` being the group
before the first one. -/
def unmerged (below : List Cube) : Groups → List Cube
  | [] => []
  | group :: rest =>
    (group.filter fun c => !below.any (·.merges c) && !(rest.headD []).any c.merges) ++
      unmerged group rest

/-- The groups of every round, up to a bound on the number of rounds. The last round is the first in
which nothing is merged. -/
def rounds : Nat → Groups → List Groups
  | 0, _ => []
  | bound + 1, groups =>
    let next := advance groups
    groups :: if next.all List.isEmpty then [] else rounds bound next

/-- The prime cubes of a set of terms, in the order in which they are found. -/
def primes (terms : IndexSet) (width : Nat) : CubeList :=
  CubeList.ofList ((rounds (width + 1) (start terms width)).flatMap (unmerged []))

@[simp] theorem length_start (terms : IndexSet) (width : Nat) :
    (start terms width).length = width + 1 := by
  simp [start]

/-- A round has one group less than the one before it. -/
@[simp] theorem length_advance (groups : Groups) : (advance groups).length = groups.length - 1 := by
  fun_induction advance groups with
  | case1 low high rest ih => simp [ih]
  | case2 groups short =>
    match groups, short with
    | [], _ => rfl
    | [_], _ => rfl
    | low :: high :: rest, short => exact absurd rfl (short low high rest)

end Switching.PrimeSearch
