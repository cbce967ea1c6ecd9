import Mathlib
import Switching.PrimeSearch.Loop

/-! # Renaming cubes

Of a cube, the search asks which others it can be merged with, whether it is listed already and how many
positions it fixes to true. So it does not notice a renaming of the cubes that keeps the answers
(`Renames`): each of its steps commutes with the renaming, and so does the whole search (`search?_rename`).
-/

namespace Switching

/-- A renaming of cubes that the search does not notice. -/
structure Renames (f : Cube → Cube) : Prop where
  injective : Function.Injective f
  combine?_eq (a b : Cube) : (f a).combine? (f b) = (a.combine? b).map f
  ones_eq (c : Cube) : (f c).pattern.ones = c.pattern.ones

variable {f : Cube → Cube}

namespace CubeList

theorem ext {list other : CubeList} (same : list.toList = other.toList) : list = other := by
  cases list
  cases other
  cases same
  rfl

/-- The renamed cubes, in the same order. -/
def rename (renames : Renames f) (list : CubeList) : CubeList :=
  ⟨list.toList.map f, list.nodup.map renames.injective⟩

variable (renames : Renames f)

@[simp] theorem toList_rename (list : CubeList) :
    (list.rename renames).toList = list.toList.map f :=
  rfl

theorem rename_empty : (∅ : CubeList).rename renames = ∅ := rfl

theorem rename_push (list : CubeList) (c : Cube) :
    (list.push c).rename renames = (list.rename renames).push (f c) := by
  have same : f c ∈ list.rename renames ↔ c ∈ list :=
    List.mem_map_of_injective renames.injective
  refine ext ?_
  rw [toList_rename, toList_push, toList_push, apply_ite (List.map f), List.map_append]
  exact if_congr same.symm rfl rfl

theorem rename_extend (list : CubeList) (cubes : List Cube) :
    (list.extend cubes).rename renames = (list.rename renames).extend (cubes.map f) := by
  induction cubes generalizing list with
  | nil => rfl
  | cons c cubes ih =>
    rw [extend, List.foldl_cons, ← extend, ih, rename_push]
    rfl

end CubeList

namespace PrimeSearch

/-- A step that commutes with a map of its states and of its items does so for all items. -/
theorem foldlM_map_comm {α β γ δ : Type} {step : β → α → Option β} {mapped : δ → γ → Option δ}
    {state : β → δ} {item : α → γ}
    (comm : ∀ b a, mapped (state b) (item a) = (step b a).map state) (b : β) (items : List α) :
    (items.map item).foldlM mapped (state b) = (items.foldlM step b).map state := by
  induction items generalizing b with
  | nil => rfl
  | cons a items ih =>
    rw [List.map_cons, List.foldlM_cons, List.foldlM_cons, comm]
    cases step b a with
    | none => rfl
    | some next => exact ih next

theorem update?_map {α β : Type} {item : α → β} {change : α → α} {mapped : β → β}
    (comm : ∀ a, mapped (item a) = item (change a)) (table : List α) (position : Nat) :
    update? (table.map item) position mapped = (update? table position change).map (List.map item) := by
  rw [update?, update?, List.length_map]
  split
  · rw [Option.map_some, Option.some.injEq]
    refine List.ext_getElem? fun place => ?_
    simp only [List.getElem?_modify, List.getElem?_map, Option.map_eq_map, Option.map_map]
    refine congrArg (Option.map · table[place]?) (funext fun a => ?_)
    by_cases here : position = place
    · simp [here, comm]
    · simp [here]
  · rfl

/-- A comparison of the renamed cubes. -/
def Comparison.rename (f : Cube → Cube) (comparison : Comparison) : Comparison :=
  ⟨comparison.group, comparison.low.map f id, comparison.high.map f id⟩

theorem comparisons_rename (groups : Groups) : comparisons (groups.map (List.map f)) =
    (comparisons groups).map (Comparison.rename f) := by
  rw [comparisons, ← List.map_tail, List.zip_map, List.zipIdx_map, List.flatMap_map, comparisons,
    List.map_flatMap]
  refine List.flatMap_congr fun neighbours _ => ?_
  rw [Prod.map_fst, Prod.map_fst, List.zipIdx_map, List.flatMap_map, List.map_flatMap]
  refine List.flatMap_congr fun low _ => ?_
  simp only [Prod.map_snd, List.zipIdx_map, List.map_map]
  rfl

theorem unmarked_rename (groups : Groups) (marks : List (List Bool)) :
    unmarked (groups.map (List.map f)) marks = (unmarked groups marks).map f := by
  rw [unmarked, List.zip_map_left, List.flatMap_map, unmarked, List.map_flatMap]
  refine List.flatMap_congr fun row _ => ?_
  rw [Prod.map_fst, Prod.map_snd, List.zip_map_left, List.filterMap_map, List.map_filterMap]
  refine List.filterMap_congr fun entry _ => ?_
  obtain ⟨c, marked⟩ := entry
  cases marked <;> rfl

variable (renames : Renames f)

include renames

theorem file?_rename (groups : Groups) (c : Cube) :
    file? (groups.map (List.map f)) (f c) =
      (file? groups c).map (List.map (List.map f)) := by
  rw [file?, file?, renames.ones_eq]
  refine update?_map (fun group => ?_) groups _
  rw [List.map_append, List.map_singleton]

/-! ## A round -/

/-- The tables of a round for the renamed cubes. -/
def Tables.rename (tables : Tables) : Tables :=
  ⟨tables.marks, tables.next.map (·.rename renames), tables.merged⟩

theorem blank_rename (groups : Groups) :
    Tables.blank (groups.map (List.map f)) = (Tables.blank groups).rename renames := by
  simp only [Tables.blank, Tables.rename, List.map_map, List.length_map, List.map_replicate,
    CubeList.rename_empty, Function.comp_def]

theorem compare?_rename (tables : Tables) (comparison : Comparison) :
    (tables.rename renames).compare? (comparison.rename f) =
      (tables.compare? comparison).map (Tables.rename renames) := by
  have outcome : (comparison.rename f).result? = comparison.result?.map f :=
    renames.combine?_eq _ _
  rw [Tables.compare?, Tables.compare?, outcome]
  cases comparison.result? with
  | none => rfl
  | some c =>
    have filed : update? (tables.next.map (·.rename renames)) comparison.group (·.push (f c)) =
        (update? tables.next comparison.group (·.push c)).map (List.map (·.rename renames)) :=
      update?_map (fun list => (CubeList.rename_push renames list c).symm) tables.next comparison.group
    simp only [Option.map_some, Tables.rename, Comparison.rename, Prod.map_snd, id_eq]
    cases Tables.mark? tables.marks comparison.group comparison.low.2 with
    | none => rfl
    | some marks =>
      simp only [Option.bind_eq_bind, Option.bind_some]
      cases Tables.mark? marks (comparison.group + 1) comparison.high.2 with
      | none => rfl
      | some marks =>
        rw [Option.bind_some, Option.bind_some, filed]
        cases update? tables.next comparison.group (·.push c) <;> rfl

/-- What a round finds, and the groups of the next one, for the renamed cubes. -/
def renameRound (outcome : CubeList × Option Groups) : CubeList × Option Groups :=
  (outcome.1.rename renames, outcome.2.map (List.map (List.map f)))

theorem round?_rename (groups : Groups) (primes : CubeList) :
    round? (groups.map (List.map f)) (primes.rename renames) =
      (round? groups primes).map (renameRound renames) := by
  rw [round?, round?, comparisons_rename, blank_rename renames,
    foldlM_map_comm (compare?_rename renames), Option.map_map, Option.map_map]
  refine Option.map_congr fun tables _ => ?_
  simp only [Function.comp_apply, Tables.rename, renameRound, unmarked_rename, CubeList.rename_extend,
    List.map_map]
  cases tables.merged <;> simp [Function.comp_def]

/-! ## The whole search -/

theorem search?_rename (bound : Nat) (groups : Groups) (primes : CubeList) :
    search? bound (groups.map (List.map f)) (primes.rename renames) =
      (search? bound groups primes).map (·.rename renames) := by
  induction bound generalizing groups primes with
  | zero => rfl
  | succ bound ih =>
    rw [search?, search?, round?_rename renames]
    match round? groups primes with
    | none => rfl
    | some (found, none) => rfl
    | some (found, some next) => exact ih next found

end PrimeSearch

end Switching
