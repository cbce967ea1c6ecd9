import Switching.CubeList

/-! # Prime charts

A chart records, for each minterm that has to be covered, the positions of the cubes that cover it.
A cube is essential when some minterm has no other cover.
-/

namespace Switching

/-- The covers of the required minterms. -/
structure Chart where
  /-- Each minterm, smallest first, with the positions of the cubes that cover it. -/
  rows : List (Nat × List Nat)
deriving DecidableEq, Repr

namespace Chart

instance : EmptyCollection Chart := ⟨⟨[]⟩⟩

instance : Inhabited Chart := ⟨∅⟩

/-- The chart of a list of cubes over a set of minterms, by a test for what a cube covers. -/
def buildBy (covers : Cube → Nat → Bool) (cubes : CubeList) (minterms : IndexSet) : Chart :=
  ⟨minterms.toList.map fun m => (m, cubes.positions (covers · m))⟩

/-- The chart of a list of cubes over a set of minterms. -/
def build (cubes : CubeList) (minterms : IndexSet) : Chart :=
  buildBy Cube.covers cubes minterms

/-- The minterms of the chart, smallest first. -/
def minterms (chart : Chart) : List Nat :=
  chart.rows.map (·.1)

/-- The positions of the cubes that cover a minterm; empty if the minterm is not in the chart. -/
def covering (chart : Chart) (minterm : Nat) : List Nat :=
  (chart.rows.lookup minterm).getD []

/-- The number of minterms. -/
def size (chart : Chart) : Nat :=
  chart.rows.length

/-- The only element of a list, if there is just one. -/
def single? : List Nat → Option Nat
  | [position] => some position
  | _ => none

/-- The positions of the essential cubes, in the order of the first minterm that has no other
cover. -/
def essentials (chart : Chart) : List Nat :=
  (chart.rows.filterMap fun row => single? row.2).eraseDups

@[simp] theorem minterms_buildBy (covers : Cube → Nat → Bool) (cubes : CubeList)
    (minterms : IndexSet) : (buildBy covers cubes minterms).minterms = minterms.toList := by
  simp [buildBy, Chart.minterms, Function.comp_def]

@[simp] theorem minterms_build (cubes : CubeList) (minterms : IndexSet) :
    (build cubes minterms).minterms = minterms.toList :=
  minterms_buildBy ..

end Chart

end Switching
