import Switching.PrimeSearch

/-! # The search with tables

The search for prime cubes as a loop over tables. Minterms are filed in groups one after the other. In
a round, every cube of a group is compared with every cube of the next one; two cubes that can be merged
are marked, and the result is filed in a group of the next round. The cubes without a mark are prime.
The loop goes on until a round merges nothing, and nothing else bounds the number of its rounds. An entry
that a table does not have cannot be changed, so that a round has no result if it looks for one.
-/

namespace Switching.PrimeSearch

/-- Change an entry of a table. There is no result if the table has no such entry. -/
def update? {α : Type} (table : List α) (position : Nat) (change : α → α) : Option (List α) :=
  if position < table.length then some (table.modify position change) else none

/-- File a cube in the group for the number of its positions that are fixed to true. -/
def file? (groups : Groups) (c : Cube) : Option Groups :=
  update? groups c.pattern.ones (· ++ [c])

/-- File the cubes of all minterms, with a group for each number of variables that may be true. -/
def fileAll? (terms : IndexSet) (width : Nat) : Option Groups :=
  (terms.toList.map (Cube.ofMinterm · width)).foldlM file? (List.replicate (width + 1) [])

/-- Two cubes that are compared, the second being in the group that follows the group of the first. -/
structure Comparison where
  /-- The group of the first cube. -/
  group : Nat
  /-- The first cube and its position in its group. -/
  low : Cube × Nat
  /-- The second cube and its position in its group. -/
  high : Cube × Nat

/-- What the two cubes are merged into. -/
def Comparison.result? (comparison : Comparison) : Option Cube :=
  comparison.low.1.combine? comparison.high.1

/-- The comparisons of a round, in the order in which they are made. -/
def comparisons (groups : Groups) : List Comparison :=
  (groups.zip groups.tail).zipIdx.flatMap fun neighbours =>
    neighbours.1.1.zipIdx.flatMap fun low =>
      neighbours.1.2.zipIdx.map fun high => ⟨neighbours.2, low, high⟩

/-- The tables of a round. -/
structure Tables where
  /-- Which cubes are marked, by group and position. -/
  marks : List (List Bool)
  /-- The groups of the next round. -/
  next : List CubeList
  /-- Whether any two cubes were merged. -/
  merged : Bool

namespace Tables

/-- The tables at the start of a round: a mark for each cube, and one group less for the next round. -/
def blank (groups : Groups) : Tables :=
  ⟨groups.map fun group => group.map fun _ => false, List.replicate (groups.length - 1) ∅, false⟩

/-- Mark a cube. -/
def mark? (marks : List (List Bool)) (group position : Nat) : Option (List (List Bool)) := do
  let row ← marks[group]?
  let row ← update? row position fun _ => true
  update? marks group fun _ => row

/-- Compare two cubes. If they can be merged, mark both and file the result unless it is there already. -/
def compare? (tables : Tables) (comparison : Comparison) : Option Tables :=
  match comparison.result? with
  | none => some tables
  | some c => do
    let marks ← mark? tables.marks comparison.group comparison.low.2
    let marks ← mark? marks (comparison.group + 1) comparison.high.2
    let next ← update? tables.next comparison.group (·.push c)
    return ⟨marks, next, true⟩

end Tables

/-- The cubes without a mark. -/
def unmarked (groups : Groups) (marks : List (List Bool)) : List Cube :=
  (groups.zip marks).flatMap fun row =>
    (row.1.zip row.2).filterMap fun entry => if entry.2 then none else some entry.1

/-- Carry out a round and add its primes to those that were found before. If anything was merged there
are groups for another round. -/
def round? (groups : Groups) (primes : CubeList) : Option (CubeList × Option Groups) :=
  ((comparisons groups).foldlM Tables.compare? (.blank groups)).map fun tables =>
    (primes.extend (unmarked groups tables.marks),
      if tables.merged then some (tables.next.map (·.toList)) else none)

/-- Carry out rounds until nothing is merged in one, but not more than a number of them. -/
def search? : Nat → Groups → CubeList → Option CubeList
  | 0, _, _ => none
  | bound + 1, groups, primes =>
    match round? groups primes with
    | none => none
    | some (found, none) => some found
    | some (found, some next) => search? bound next found

/-- A search that comes to an end: from some groups and primes, with the groups at the start of each of
its rounds, to all primes that are found. -/
inductive Searches : Groups → CubeList → List Groups → CubeList → Prop where
  /-- Nothing is merged in the last round. -/
  | last {groups : Groups} {primes found : CubeList}
      (final : round? groups primes = some (found, none)) : Searches groups primes [groups] found
  /-- Another round follows if anything was merged. -/
  | more {groups next : Groups} {primes found result : CubeList} {rounds : List Groups}
      (step : round? groups primes = some (found, some next))
      (rest : Searches next found rounds result) : Searches groups primes (groups :: rounds) result

/-- The groups at the start of a round. There is at least one, and there is one for each number of
positions that are fixed to true. A group holds only cubes with its own number of such positions. -/
structure Filed (width free : Nat) (groups : Groups) : Prop where
  ne_nil : groups ≠ []
  length_eq : groups.length = width + 1 - free
  width_eq (group : List Cube) : group ∈ groups → ∀ c ∈ group, c.pattern.length = width
  dashes_eq (group : List Cube) : group ∈ groups → ∀ c ∈ group, c.pattern.dashes = free
  ones_le (group : List Cube) : group ∈ groups → ∀ c ∈ group, c.pattern.ones ≤ groups.length - 1
  ones_eq (ones : Nat) (group : List Cube) :
    groups[ones]? = some group → ∀ c ∈ group, c.pattern.ones = ones

end Switching.PrimeSearch
