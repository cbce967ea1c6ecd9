import Switching.Cube

/-! # Lists of distinct cubes

Cubes are listed in the order in which they were added, and a cube that is already listed is not
added again. The position of a cube never changes, so that it can be used as an index.
-/

namespace Switching

/-- An ordered list of distinct cubes. -/
structure CubeList where
  /-- The cubes in the order in which they were added. -/
  toList : List Cube
  /-- No cube is listed twice. -/
  nodup : toList.Nodup

namespace CubeList

instance : EmptyCollection CubeList := ⟨⟨[], .nil⟩⟩

instance : Inhabited CubeList := ⟨∅⟩

instance : Membership Cube CubeList := ⟨fun list c => c ∈ list.toList⟩

instance (c : Cube) (list : CubeList) : Decidable (c ∈ list) :=
  inferInstanceAs (Decidable (c ∈ list.toList))

/-- The number of cubes. -/
def size (list : CubeList) : Nat :=
  list.toList.length

/-- The cube at a position. -/
def get? (list : CubeList) (position : Nat) : Option Cube :=
  list.toList[position]?

theorem nodup_append_new {cubes : List Cube} {c : Cube} (distinct : cubes.Nodup) (new : c ∉ cubes) :
    (cubes ++ [c]).Nodup := by
  simp only [List.nodup_append, List.mem_singleton]
  refine ⟨distinct, by simp, ?_⟩
  rintro a member _ rfl same
  exact new (same ▸ member)

/-- The list with a new cube at its end; none if the cube is already listed. -/
def push? (list : CubeList) (c : Cube) : Option CubeList :=
  if listed : c ∈ list.toList then none
  else some ⟨list.toList ++ [c], nodup_append_new list.nodup listed⟩

/-- Add a cube at the end of a list unless it is already listed. -/
def push (list : CubeList) (c : Cube) : CubeList :=
  (list.push? c).getD list

/-- Add cubes one after the other. -/
def extend (list : CubeList) (cubes : List Cube) : CubeList :=
  cubes.foldl push list

/-- The distinct cubes of a list, in the order of their first occurrences. -/
def ofList (cubes : List Cube) : CubeList :=
  extend ∅ cubes

/-- The positions of the cubes that pass a test. -/
def positions (list : CubeList) (test : Cube → Bool) : List Nat :=
  list.toList.zipIdx.filterMap fun entry => if test entry.1 then some entry.2 else none

/-- The positions of the cubes that cover a minterm index. -/
def covering (list : CubeList) (index : Nat) : List Nat :=
  list.positions (·.covers index)

/-- Some cube covers a minterm, but none does once the cube at a position is left out. -/
def Needs (list : CubeList) (position minterm : Nat) : Prop :=
  (∃ c ∈ list.toList, c.covers minterm = true) ∧
    ∀ c ∈ list.toList.eraseIdx position, c.covers minterm = false

instance (list : CubeList) (position minterm : Nat) : Decidable (list.Needs position minterm) :=
  inferInstanceAs (Decidable (_ ∧ _))

/-- The characters that separate written cubes. -/
def isSeparator (c : Char) : Bool :=
  c = ',' || c = ';' || c = '\n'

/-- Read a list of patterns. Pieces without any symbol are skipped. -/
def ofString (text : String) : Except Fault CubeList :=
  let pieces := (text.toList.splitOnP isSeparator).filter fun piece => !(Text.trim piece).isEmpty
  (pieces.mapM fun piece => Cube.ofString (String.ofList piece)).map ofList

/-- The patterns, each on a line of its own. -/
def text (list : CubeList) : String :=
  String.ofList (list.toList.flatMap (·.pattern.symbols ++ ['\n']))

theorem toList_push (list : CubeList) (c : Cube) :
    (list.push c).toList = if c ∈ list then list.toList else list.toList ++ [c] := by
  by_cases listed : c ∈ list.toList
  · have member : c ∈ list := listed
    simp [push, push?, listed, member]
  · have absent : c ∉ list := listed
    simp [push, push?, listed, absent]

/-- A list holds what it held before and the cubes that were added. -/
theorem mem_extend {list : CubeList} {cubes : List Cube} {c : Cube} :
    c ∈ list.extend cubes ↔ c ∈ list ∨ c ∈ cubes := by
  induction cubes generalizing list with
  | nil => simp [extend]
  | cons first cubes ih =>
    have pushed : c ∈ list.push first ↔ c ∈ list ∨ c = first := by
      change c ∈ (list.push first).toList ↔ c ∈ list.toList ∨ c = first
      rw [toList_push]
      split
      · rename_i member
        exact ⟨Or.inl, fun either => either.elim id fun same => same ▸ member⟩
      · simp
    rw [extend, List.foldl_cons, ← extend, ih, pushed, List.mem_cons, or_assoc]

theorem mem_ofList {cubes : List Cube} {c : Cube} : c ∈ ofList cubes ↔ c ∈ cubes := by
  rw [ofList, mem_extend]
  exact or_iff_right List.not_mem_nil

end CubeList

end Switching
