import Mathlib
import Switching.CubeList.Keyed
import Switching.Proofs.Cube.Reading
import Switching.Proofs.Outcome

/-! # Lists of cubes beside the set of their keys

A cube is told by its key (`Cube.key_injective`), so that the list and the set of keys stay in step
however a list is made and added to, and the same cubes are listed with and without the keys
(`KeyedCubes.build_exact`).
-/

namespace Switching

variable {c : Cube} {cubes : List Cube}

/-- Cubes with one key have the same width, the same pattern and the same origins. -/
theorem Cube.key_injective : Function.Injective Cube.key := by
  rintro ⟨p, origins⟩ ⟨q, others⟩ same
  obtain ⟨texts, members⟩ := Prod.mk.inj same
  have symbols : p.symbols = q.symbols := String.ofList_injective texts
  congr 1
  · exact List.map_injective_iff.mpr Pattern.symbol_injective symbols
  · rw [← IndexSet.ofList_toList origins, ← IndexSet.ofList_toList others]
    exact congrArg IndexSet.ofList members

namespace CubeList

variable {list : CubeList}

/-- A cube is listed if one with its pattern and its origins is. -/
theorem mem_iff : c ∈ list ↔
    ∃ listed ∈ list.toList, listed.pattern = c.pattern ∧ listed.origins = c.origins := by
  constructor
  · exact fun member => ⟨c, member, rfl, rfl⟩
  · rintro ⟨⟨_, _⟩, member, rfl, rfl⟩
    exact member

theorem push?_of_mem (member : c ∈ list) : list.push? c = none :=
  dif_pos member

theorem push?_of_not_mem (absent : c ∉ list) :
    ∃ next, list.push? c = some next ∧ next.toList = list.toList ++ [c] :=
  ⟨_, dif_neg absent, rfl⟩

/-- What is listed keeps its position. -/
theorem prefix_push (list : CubeList) (c : Cube) : list.toList <+: (list.push c).toList := by
  rw [toList_push]
  split
  · exact List.prefix_rfl
  · exact List.prefix_append ..

theorem prefix_extend (list : CubeList) (cubes : List Cube) :
    list.toList <+: (list.extend cubes).toList := by
  induction cubes generalizing list with
  | nil => exact List.prefix_rfl
  | cons c cubes ih => exact (list.prefix_push c).trans (ih (list.push c))

theorem prefix_add (list : CubeList) (addition : Addition) :
    list.toList <+: (list.add addition).toList := by
  cases addition with
  | push c => exact list.prefix_push c
  | extend cubes => exact list.prefix_extend cubes

theorem prefix_foldl_add (list : CubeList) (additions : List Addition) :
    list.toList <+: (additions.foldl add list).toList := by
  induction additions generalizing list with
  | nil => exact List.prefix_rfl
  | cons addition additions ih => exact (list.prefix_add addition).trans (ih (list.add addition))

end CubeList

namespace KeyedCubes

open CubeList (Addition Source)

variable {keyed : KeyedCubes} {list : CubeList} {text : String}

/-! ## The list and the set -/

/-- The cubes are those of a list, and the known keys are theirs. -/
structure Mirrors (keyed : KeyedCubes) (list : CubeList) : Prop where
  cubes_eq : keyed.cubes = list.toList
  known_eq : keyed.known = (list.toList.map Cube.key).toFinset

namespace Mirrors

theorem empty : (∅ : KeyedCubes).Mirrors ∅ := ⟨rfl, rfl⟩

variable (mirrors : keyed.Mirrors list)

include mirrors

/-- A key is known if its own cube is listed. -/
theorem key_mem_known_iff : c.key ∈ keyed.known ↔ c ∈ list := by
  rw [mirrors.known_eq, List.mem_toFinset]
  exact List.mem_map_of_injective Cube.key_injective

theorem push_of_mem (member : c ∈ list) : keyed.push c = (false, keyed) :=
  if_pos (mirrors.key_mem_known_iff.mpr member)

theorem push_of_not_mem (absent : c ∉ list) :
    keyed.push c = (true, ⟨keyed.cubes ++ [c], insert c.key keyed.known⟩) :=
  if_neg (mt mirrors.key_mem_known_iff.mp absent)

/-- One cube is added to both or to neither. -/
theorem push (c : Cube) : (keyed.push c).2.Mirrors (list.push c) := by
  by_cases member : c ∈ list
  · have same : (list.push c).toList = list.toList := by rw [CubeList.toList_push, if_pos member]
    rw [mirrors.push_of_mem member]
    exact ⟨mirrors.cubes_eq.trans same.symm, same ▸ mirrors.known_eq⟩
  · have longer : (list.push c).toList = list.toList ++ [c] := by
      rw [CubeList.toList_push, if_neg member]
    rw [mirrors.push_of_not_mem member]
    refine ⟨?_, ?_⟩
    · rw [mirrors.cubes_eq, longer]
    · rw [mirrors.known_eq, longer, List.map_append, List.toFinset_append, Finset.union_comm]
      rfl

theorem extend (cubes : List Cube) : (keyed.extend cubes).Mirrors (list.extend cubes) := by
  induction cubes generalizing keyed list with
  | nil => exact mirrors
  | cons c cubes ih => exact ih (mirrors.push c)

theorem add (addition : Addition) : (keyed.add addition).Mirrors (list.add addition) := by
  cases addition with
  | push c => exact mirrors.push c
  | extend cubes => exact mirrors.extend cubes

theorem foldl_add (additions : List Addition) :
    (additions.foldl KeyedCubes.add keyed).Mirrors (additions.foldl CubeList.add list) := by
  induction additions generalizing keyed list with
  | nil => exact mirrors
  | cons addition additions ih => exact ih (mirrors.add addition)

theorem contains_iff : keyed.contains c = true ↔ c ∈ list := by
  rw [contains, decide_eq_true_iff, mirrors.key_mem_known_iff]

end Mirrors

/-! ## Reading -/

/-- It does not matter whether a cube is added before the next is read or after all were read. -/
theorem foldlM_push {α : Type} (read : α → Except Fault Cube) (pieces : List α) (keyed : KeyedCubes) :
    pieces.foldlM (fun keyed piece => (read piece).map fun c => (keyed.push c).2) keyed =
      (pieces.mapM read).map keyed.extend := by
  induction pieces generalizing keyed with
  | nil => rfl
  | cons piece pieces ih =>
    rw [List.foldlM_cons, List.mapM_cons]
    cases read piece with
    | error fault => rfl
    | ok c =>
      refine (ih (keyed.push c).2).trans ?_
      cases pieces.mapM read with
      | error fault => rfl
      | ok cubes => rfl

/-- Both ways to read a list read the same cubes. -/
theorem exists_ofString_eq (text : String) : ∃ outcome : Except Fault (List Cube),
    CubeList.ofString text = outcome.map CubeList.ofList ∧ ofString text = outcome.map ofList :=
  ⟨_, rfl, foldlM_push _ _ ∅⟩

/-- Both ways to make a list fail alike or list the same cubes. -/
theorem build_cases (source : Source) (additions : List Addition) :
    (∃ fault, CubeList.build source additions = .error fault ∧ build source additions = .error fault) ∨
      ∃ list keyed, CubeList.build source additions = .ok list ∧ build source additions = .ok keyed ∧
        keyed.Mirrors list := by
  have made (cubes : List Cube) : (additions.foldl add (ofList cubes)).Mirrors
      (additions.foldl CubeList.add (.ofList cubes)) := (Mirrors.empty.extend cubes).foldl_add additions
  cases source with
  | cubes cubes => exact .inr ⟨_, _, rfl, rfl, made cubes⟩
  | text text =>
    obtain ⟨outcome, left, right⟩ := exists_ofString_eq text
    rw [CubeList.build, build, left, right]
    cases outcome with
    | error fault => exact .inl ⟨fault, rfl, rfl⟩
    | ok cubes => exact .inr ⟨_, _, rfl, rfl, made cubes⟩

/-- However a list of cubes is made and added to, it is the same with a set of keys beside it, or it
fails for the same cause. No two of its cubes have the same pattern and the same origins, and the set
holds the keys of its cubes and no others. A cube is added, at the end, if and only if none with its
pattern and its origins is listed, and nothing is changed otherwise; that is also what the set answers
when it is asked for the cube. Whatever is added later, each cube keeps its position. -/
theorem build_exact (source : Source) (additions : List Addition) :
    (∃ fault, CubeList.build source additions = .error fault ∧ build source additions = .error fault) ∨
    ∃ list keyed, CubeList.build source additions = .ok list ∧ build source additions = .ok keyed ∧
      keyed.cubes = list.toList ∧
      (keyed.cubes.map fun c => (c.pattern, c.origins)).Nodup ∧
      keyed.known = (keyed.cubes.map Cube.key).toFinset ∧
      (∀ c : Cube,
        ((∃ listed ∈ keyed.cubes, listed.pattern = c.pattern ∧ listed.origins = c.origins) ∧
          keyed.push c = (false, keyed) ∧ list.push? c = none ∧ keyed.contains c = true) ∨
        ((∀ listed ∈ keyed.cubes, ¬(listed.pattern = c.pattern ∧ listed.origins = c.origins)) ∧
          keyed.push c = (true, ⟨keyed.cubes ++ [c], insert c.key keyed.known⟩) ∧
          (∃ next, list.push? c = some next ∧ next.toList = keyed.cubes ++ [c]) ∧
          keyed.contains c = false)) ∧
      ∀ more : List Addition, (more.foldl add keyed).cubes = (more.foldl CubeList.add list).toList ∧
        keyed.cubes <+: (more.foldl add keyed).cubes := by
  rcases build_cases source additions with failed | ⟨list, keyed, left, right, mirrors⟩
  · exact .inl failed
  refine .inr ⟨list, keyed, left, right, mirrors.cubes_eq, ?_, ?_, fun c => ?_, fun more => ?_⟩
  · rw [mirrors.cubes_eq]
    refine list.nodup.map ?_
    rintro ⟨_, _⟩ ⟨_, _⟩ same
    cases same
    rfl
  · rw [mirrors.cubes_eq, mirrors.known_eq]
  · rw [mirrors.cubes_eq]
    by_cases member : c ∈ list
    · refine .inl ⟨CubeList.mem_iff.mp member, mirrors.push_of_mem member, CubeList.push?_of_mem member, ?_⟩
      exact mirrors.contains_iff.mpr member
    · refine .inr ⟨fun listed inside same => member (CubeList.mem_iff.mpr ⟨listed, inside, same⟩), ?_,
        CubeList.push?_of_not_mem member, ?_⟩
      · rw [mirrors.push_of_not_mem member, mirrors.cubes_eq]
      · exact Bool.eq_false_iff.mpr fun known => member (mirrors.contains_iff.mp known)
  · have grown := mirrors.foldl_add more
    rw [grown.cubes_eq, mirrors.cubes_eq]
    exact ⟨rfl, list.prefix_foldl_add more⟩

-- A pattern with other origins is another cube.
example : (CubeList.build (.text "0-,0-")
      [.push ⟨[some false, none], .singleton 0⟩, .push (.ofPattern [some false, none])]).map (·.toList) =
    .ok [.ofPattern [some false, none], ⟨[some false, none], .singleton 0⟩] := by
  decide +kernel

end KeyedCubes

end Switching
