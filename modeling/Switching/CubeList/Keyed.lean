import Mathlib.Data.Finset.Insert
import Switching.CubeList

/-! # Lists of cubes with a set of keys

Whether a cube is listed can be looked up instead of searched for: a set of keys is kept beside the list,
and the key of a cube is its text with its origins. Lists are made and added to in the same ways as those
without keys.
-/

namespace Switching

/-- The text and the origins of a cube, by which it is looked up. -/
def Cube.key (c : Cube) : String × List Nat :=
  (c.text, c.origins.toList)

namespace CubeList

/-- What can be added to a list of cubes. -/
inductive Addition where
  /-- One cube. -/
  | push (c : Cube)
  /-- Several cubes, one after the other. -/
  | extend (cubes : List Cube)

/-- What a list of cubes can be made from. -/
inductive Source where
  /-- Cubes, some of them possibly equal. -/
  | cubes (cubes : List Cube)
  /-- Written patterns. -/
  | text (text : String)

/-- Add to a list. -/
def add (list : CubeList) : Addition → CubeList
  | .push c => list.push c
  | .extend cubes => list.extend cubes

/-- Make a list and add to it. -/
def build (source : Source) (additions : List Addition) : Except Fault CubeList :=
  match source with
  | .cubes cubes => .ok (additions.foldl add (ofList cubes))
  | .text text => (ofString text).map (additions.foldl add)

end CubeList

/-- Cubes in the order in which they were added, beside the set of the keys that are known. -/
structure KeyedCubes where
  /-- The cubes. -/
  cubes : List Cube
  /-- The keys by which cubes are looked up. -/
  known : Finset (String × List Nat)

namespace KeyedCubes

open CubeList (Addition Source)

instance : EmptyCollection KeyedCubes := ⟨⟨[], ∅⟩⟩

/-- Add a cube at the end unless its key is known, and tell whether it was added. -/
def push (keyed : KeyedCubes) (c : Cube) : Bool × KeyedCubes :=
  if c.key ∈ keyed.known then (false, keyed)
  else (true, ⟨keyed.cubes ++ [c], insert c.key keyed.known⟩)

/-- Add cubes one after the other. -/
def extend (keyed : KeyedCubes) (cubes : List Cube) : KeyedCubes :=
  cubes.foldl (fun keyed c => (keyed.push c).2) keyed

/-- The distinct cubes of a list. -/
def ofList (cubes : List Cube) : KeyedCubes :=
  extend ∅ cubes

/-- Whether the key of a cube is known. -/
def contains (keyed : KeyedCubes) (c : Cube) : Bool :=
  c.key ∈ keyed.known

/-- Read patterns, each of which is added before the next is read. -/
def ofString (text : String) : Except Fault KeyedCubes :=
  ((text.toList.splitOnP CubeList.isSeparator).filter fun piece => !(Text.trim piece).isEmpty).foldlM
    (fun keyed piece => (Cube.ofString (String.ofList piece)).map fun c => (keyed.push c).2) ∅

/-- Add to a list. -/
def add (keyed : KeyedCubes) : Addition → KeyedCubes
  | .push c => (keyed.push c).2
  | .extend cubes => keyed.extend cubes

/-- Make a list and add to it. -/
def build (source : Source) (additions : List Addition) : Except Fault KeyedCubes :=
  match source with
  | .cubes cubes => .ok (additions.foldl add (ofList cubes))
  | .text text => (ofString text).map (additions.foldl add)

end KeyedCubes

end Switching
