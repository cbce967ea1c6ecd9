import Switching.PrimeSearch.Loop
import Switching.Proofs.PrimeSearch.Pairs

/-! # The search with tables is total

A comparison of a round looks for the marks of its two cubes and for the group of the next round where
the result is filed. The two cubes stand in neighbouring groups, so that it finds all three, and the
tables after any number of comparisons are known (`tablesAfter`). Hence a round leaves the cubes that
are not merged, and the groups of the next round are those that leading pairs give (`round?_eq`).

The loop has no bound of its own. It comes to an end because a round has one group less than the one
before it, so that there are no more rounds than groups to begin with (`searches_rounds`). It finds the
same primes as the search with a bound (`search_total`).
-/

namespace Switching

theorem CubeList.extend_append (list : CubeList) (cubes more : List Cube) :
    list.extend (cubes ++ more) = (list.extend cubes).extend more :=
  List.foldl_append

theorem CubeList.ofList_concat (cubes : List Cube) (c : Cube) :
    ofList (cubes ++ [c]) = (ofList cubes).push c :=
  extend_append ∅ cubes [c]

namespace PrimeSearch

variable {α β : Type} {table : List α} {position : Nat} {groups : Groups} {c : Cube}

/-- If each item leads from the state after those before it to the state after it, then all of them lead
to the state after all. -/
theorem foldlM_of_step {step : β → α → Option β} {after : List α → β} {items : List α}
    (each : ∀ done, ∀ a ∈ items, step (after done) a = some (after (done ++ [a])))
    (done : List α) : items.foldlM step (after done) = some (after (done ++ items)) := by
  induction items generalizing done with
  | nil => rw [List.foldlM_nil, List.append_nil]; rfl
  | cons a items ih =>
    have rest := ih (fun done b member => each done b (List.mem_cons_of_mem a member)) (done ++ [a])
    rw [List.foldlM_cons, each done a List.mem_cons_self]
    rwa [List.append_assoc, List.singleton_append] at rest

/-! ## Filing -/

/-- An entry that a table has can be changed. -/
theorem update?_mapIdx (change : β → β) {entry : Nat → α → β} (inside : position < table.length) :
    update? (table.mapIdx entry) position change = some (table.mapIdx fun place a =>
      if place = position then change (entry place a) else entry place a) := by
  rw [update?, if_pos (by rwa [List.length_mapIdx]), Option.some.injEq]
  refine List.ext_getElem? fun place => ?_
  rw [List.getElem?_modify, List.getElem?_mapIdx, List.getElem?_mapIdx]
  by_cases here : position = place
  · simp [here, Function.comp_def]
  · simp [here, Ne.symm here]

/-- Groups with cubes filed behind those that they have. -/
def filed (groups : Groups) (cubes : List Cube) : Groups :=
  groups.mapIdx fun ones group => group ++ cubes.filter (·.pattern.ones == ones)

theorem file?_filed {cubes : List Cube} (inside : c.pattern.ones < groups.length) :
    file? (filed groups cubes) c = some (filed groups (cubes ++ [c])) := by
  rw [file?, filed, update?_mapIdx _ inside, Option.some.injEq, filed]
  refine congrArg (List.mapIdx · groups) (funext₂ fun ones group => ?_)
  by_cases here : ones = c.pattern.ones
  · simp [here]
  · simp [here, Ne.symm here]

/-- Every minterm has a group, and the groups are those of the first round. -/
theorem fileAll?_eq (terms : IndexSet) (width : Nat) :
    fileAll? terms width = some (start terms width) := by
  have blank : List.replicate (width + 1) [] = filed (List.replicate (width + 1) []) [] :=
    List.ext_getElem? fun ones => by simp [filed]
  rw [fileAll?, blank, foldlM_of_step, Option.some.injEq]
  · refine List.ext_getElem? fun ones => ?_
    by_cases small : ones < width + 1 <;> simp [filed, start, small]
  · intro cubes c member
    obtain ⟨t, _, rfl⟩ := List.mem_map.mp member
    refine file?_filed ?_
    have most : (Cube.ofMinterm t width).pattern.ones ≤ (Cube.ofMinterm t width).pattern.length :=
      List.count_le_length
    rw [List.length_replicate]
    exact Nat.lt_succ_of_le (most.trans_eq (by simp [Cube.ofMinterm]))

/-! ## Comparisons -/

/-- A cube stands at a position of a group. -/
def IsAt (groups : Groups) (group position : Nat) (c : Cube) : Prop :=
  ∃ cubes, groups[group]? = some cubes ∧ cubes[position]? = some c

theorem mem_comparisons {comparison : Comparison} : comparison ∈ comparisons groups ↔
    IsAt groups comparison.group comparison.low.2 comparison.low.1 ∧
      IsAt groups (comparison.group + 1) comparison.high.2 comparison.high.1 := by
  obtain ⟨group, low, high⟩ := comparison
  simp only [comparisons, List.mem_flatMap, List.mem_map, List.mem_zipIdx_iff_getElem?,
    List.getElem?_zip_eq_some, List.getElem?_tail, IsAt]
  constructor
  · rintro ⟨⟨⟨lows, highs⟩, _⟩, ⟨first, second⟩, _, atLow, _, atHigh, same⟩
    cases same
    exact ⟨⟨lows, first, atLow⟩, highs, second, atHigh⟩
  · rintro ⟨⟨lows, first, atLow⟩, highs, second, atHigh⟩
    exact ⟨((lows, highs), group), ⟨first, second⟩, low, atLow, high, atHigh, rfl⟩

namespace Comparison

/-- Whether a comparison marks the cube at a position of a group. -/
def marks (comparison : Comparison) (group position : Nat) : Bool :=
  comparison.result?.isSome &&
    (group == comparison.group && position == comparison.low.2 ||
      group == comparison.group + 1 && position == comparison.high.2)

/-- What a comparison files in a group of the next round. -/
def gives? (comparison : Comparison) (group : Nat) : Option Cube :=
  if comparison.group = group then comparison.result? else none

end Comparison

/-- Marks for the cubes of some groups, by group and position. -/
def marksOf (groups : Groups) (marked : Nat → Nat → Bool) : List (List Bool) :=
  groups.mapIdx fun group cubes => cubes.mapIdx fun position _ => marked group position

theorem mark?_marksOf {marked : Nat → Nat → Bool} {group : Nat}
    (isAt : IsAt groups group position c) :
    Tables.mark? (marksOf groups marked) group position =
      some (marksOf groups fun k i => marked k i || k == group && i == position) := by
  obtain ⟨cubes, listed, here⟩ := isAt
  have row : (marksOf groups marked)[group]? = some (cubes.mapIdx fun i _ => marked group i) := by
    rw [marksOf, List.getElem?_mapIdx, listed, Option.map_some]
  have inside := (List.getElem?_eq_some_iff.mp here).1
  have within := (List.getElem?_eq_some_iff.mp listed).1
  rw [Tables.mark?, row]
  change ((update? _ position fun _ => true).bind fun row => update? _ group fun _ => row) = _
  rw [update?_mapIdx _ inside, Option.bind_some, marksOf, update?_mapIdx _ within, Option.some.injEq,
    marksOf]
  refine List.ext_getElem? fun k => ?_
  rw [List.getElem?_mapIdx, List.getElem?_mapIdx]
  by_cases same : k = group
  · subst same
    rw [listed, Option.map_some, Option.map_some, if_pos rfl, Option.some.injEq]
    refine congrArg (List.mapIdx · cubes) (funext₂ fun i _ => ?_)
    by_cases own : i = position
    · simp [own]
    · simp [own, beq_false_of_ne own]
  · simp [same, beq_false_of_ne same]

/-- The tables after some comparisons. -/
def tablesAfter (groups : Groups) (done : List Comparison) : Tables where
  marks := marksOf groups fun group position => done.any (·.marks group position)
  next := groups.tail.mapIdx fun group _ => .ofList (done.filterMap (·.gives? group))
  merged := done.any (·.result?.isSome)

theorem tablesAfter_nil (groups : Groups) : tablesAfter groups [] = .blank groups := by
  rw [tablesAfter, Tables.blank, Tables.mk.injEq]
  refine ⟨List.ext_getElem? fun group => ?_, List.ext_getElem? fun group => ?_, rfl⟩
  · have row (cubes : List Cube) : cubes.mapIdx (fun _ _ => false) = cubes.map fun _ => false :=
      List.ext_getElem? fun position => by rw [List.getElem?_mapIdx, List.getElem?_map]
    rw [marksOf, List.getElem?_mapIdx, List.getElem?_map]
    exact congrArg (Option.map · groups[group]?) (funext row)
  · by_cases inside : group < groups.length - 1 <;> simp [inside, CubeList.ofList, CubeList.extend]

/-- A comparison finds all entries that it changes. -/
theorem compare?_tablesAfter {comparison : Comparison} (listed : comparison ∈ comparisons groups)
    (done : List Comparison) : (tablesAfter groups done).compare? comparison =
      some (tablesAfter groups (done ++ [comparison])) := by
  obtain ⟨low, high⟩ := mem_comparisons.mp listed
  rw [Tables.compare?]
  cases outcome : comparison.result? with
  | none => simp [tablesAfter, outcome, Comparison.marks, Comparison.gives?]
  | some merged =>
    have inside : comparison.group < groups.tail.length := by
      obtain ⟨highs, next, _⟩ := high
      have within := (List.getElem?_eq_some_iff.mp next).1
      rw [List.length_tail]
      omega
    simp only [tablesAfter, mark?_marksOf low, mark?_marksOf high, update?_mapIdx _ inside,
      Option.bind_eq_bind, Option.bind_some, Option.pure_def, Option.some.injEq, Tables.mk.injEq]
    refine ⟨congrArg (marksOf groups) (funext₂ fun group position => ?_),
      congrArg (List.mapIdx · groups.tail) (funext₂ fun group _ => ?_), ?_⟩
    · simp [Comparison.marks, outcome, Bool.or_assoc]
    · by_cases here : group = comparison.group
      · simp [here, Comparison.gives?, outcome, CubeList.ofList_concat]
      · simp [here, Ne.symm here, Comparison.gives?]
    · simp [outcome]

theorem foldlM_compare? (groups : Groups) :
    (comparisons groups).foldlM Tables.compare? (.blank groups) =
      some (tablesAfter groups (comparisons groups)) := by
  have all : ∀ done, ∀ comparison ∈ comparisons groups, _ :=
    fun done comparison listed => compare?_tablesAfter listed done
  rw [← tablesAfter_nil, foldlM_of_step all, List.nil_append]

/-! ## What a round leaves in the tables -/

theorem mem_getD_iff {group : Nat} :
    c ∈ groups.getD group [] ↔ ∃ position, IsAt groups group position c := by
  rw [List.getD_eq_getElem?_getD]
  constructor
  · intro member
    cases listed : groups[group]? with
    | none => simp [listed] at member
    | some cubes =>
      rw [listed, Option.getD_some] at member
      obtain ⟨position, here⟩ := List.getElem?_of_mem member
      exact ⟨position, cubes, listed, here⟩
  · rintro ⟨position, cubes, listed, here⟩
    rw [listed, Option.getD_some]
    exact List.mem_of_getElem? here

theorem IsAt.unique {group : Nat} {d : Cube} (first : IsAt groups group position c)
    (second : IsAt groups group position d) : c = d := by
  obtain ⟨cubes, listed, here⟩ := first
  obtain ⟨others, again, there⟩ := second
  obtain rfl : cubes = others := Option.some.inj (listed.symm.trans again)
  exact Option.some.inj (here.symm.trans there)

theorem isSome_combine? (a b : Cube) : (a.combine? b).isSome = a.merges b :=
  Option.isSome_map

/-- A cube is marked if it can be merged with a cube of a neighbouring group. -/
theorem any_marks_iff {group : Nat} (isAt : IsAt groups group position c) :
    (comparisons groups).any (·.marks group position) = true ↔
      (∃ b ∈ ([] :: groups).getD group [], b.merges c = true) ∨
        ∃ b ∈ groups.getD (group + 1) [], c.merges b = true := by
  simp only [List.any_eq_true, Comparison.marks, Bool.and_eq_true, Bool.or_eq_true, beq_iff_eq,
    Comparison.result?, isSome_combine?]
  constructor
  · rintro ⟨comparison, listed, merges, ⟨rfl, rfl⟩ | ⟨rfl, rfl⟩⟩
    · obtain ⟨low, high⟩ := mem_comparisons.mp listed
      exact .inr ⟨_, mem_getD_iff.mpr ⟨_, high⟩, isAt.unique low ▸ merges⟩
    · obtain ⟨low, high⟩ := mem_comparisons.mp listed
      exact .inl ⟨_, mem_getD_iff.mpr ⟨_, low⟩, isAt.unique high ▸ merges⟩
  · rintro (⟨b, below, merges⟩ | ⟨b, above, merges⟩)
    · cases group with
      | zero => exact absurd below List.not_mem_nil
      | succ group =>
        obtain ⟨place, other⟩ := mem_getD_iff.mp below
        exact ⟨⟨group, (b, place), (c, position)⟩, mem_comparisons.mpr ⟨other, isAt⟩, merges,
          .inr ⟨rfl, rfl⟩⟩
    · obtain ⟨place, other⟩ := mem_getD_iff.mp above
      exact ⟨⟨group, (c, position), (b, place)⟩, mem_comparisons.mpr ⟨isAt, other⟩, merges,
        .inl ⟨rfl, rfl⟩⟩

/-- Items without a mark are those that fail the test by which they are marked. -/
theorem filterMap_zip_mapIdx {items : List α} {marked : Nat → Bool} {test : α → Bool}
    (told : ∀ position a, items[position]? = some a → marked position = test a) :
    ((items.zip (items.mapIdx fun position _ => marked position)).filterMap
      fun entry => if entry.2 then none else some entry.1) = items.filter (!test ·) := by
  induction items generalizing marked with
  | nil => rfl
  | cons a items ih =>
    have first := told 0 a rfl
    have rest : ((items.zip (items.mapIdx fun position _ => marked (position + 1))).filterMap
        fun entry => if entry.2 then none else some entry.1) = items.filter (!test ·) :=
      ih fun position b here => told (position + 1) b here
    rw [List.mapIdx_cons, List.zip_cons_cons, List.filterMap_cons, rest, first]
    cases outcome : test a <;> simp [outcome]

/-- The cubes without a mark are those that are not merged. -/
theorem unmarked_marksOf {below : List Cube} {marked : Nat → Nat → Bool}
    (told : ∀ group position c, IsAt groups group position c → marked group position =
      (((below :: groups).getD group []).any (·.merges c) ||
        (groups.getD (group + 1) []).any c.merges)) :
    unmarked groups (marksOf groups marked) = unmerged below groups := by
  induction groups generalizing below marked with
  | nil => rfl
  | cons group rest ih =>
    have later : unmarked rest (marksOf rest (marked <| · + 1)) = unmerged group rest :=
      ih fun place position c isAt => told (place + 1) position c isAt
    have head : rest.headD [] = rest.getD 0 [] := by cases rest <;> rfl
    rw [unmerged, ← later, marksOf, List.mapIdx_cons, unmarked, List.zip_cons_cons, List.flatMap_cons,
      filterMap_zip_mapIdx fun position c here => told 0 position c ⟨group, rfl, here⟩, head]
    simp [unmarked, marksOf]

/-- If only the entry at one position counts, it is the one that stands there. -/
theorem flatMap_zipIdx_at (items : List α) (give : α → List β) (position : Nat) :
    (items.zipIdx.flatMap fun entry => if entry.2 = position then give entry.1 else []) =
      (items[position]?.map give).getD [] := by
  induction items using List.reverseRecOn with
  | nil => rfl
  | append_singleton items a ih =>
    rw [List.zipIdx_append, List.flatMap_append, ih]
    rcases Nat.lt_trichotomy position items.length with before | rfl | beyond
    · have other : items.length ≠ position := (Nat.ne_of_lt before).symm
      simp [List.getElem?_append_left before, other]
    · simp
    · have outside : (items ++ [a]).length ≤ position := by simpa using beyond
      simp [List.getElem?_eq_none outside, Nat.le_of_lt beyond, Nat.ne_of_lt beyond]

/-- The comparisons of two neighbouring groups give something to one group only. -/
theorem filterMap_gives?_neighbours (lows highs : List Cube) (place group : Nat) :
    (lows.zipIdx.flatMap fun low => highs.zipIdx.filterMap fun high =>
      Comparison.gives? ⟨place, low, high⟩ group) =
    if place = group then lows.flatMap fun a => highs.filterMap a.combine? else [] := by
  have cubes (items : List Cube) : items.zipIdx.map Prod.fst = items := List.zipIdx_map_fst 0 items
  by_cases here : place = group
  · have row (low : Cube × Nat) : (highs.zipIdx.filterMap fun high =>
        Comparison.gives? ⟨place, low, high⟩ group) = highs.filterMap low.1.combine? := by
      simp only [Comparison.gives?, Comparison.result?, if_pos here]
      rw [← cubes highs, List.filterMap_map, cubes]
      rfl
    simp only [row]
    rw [if_pos here, ← cubes lows, List.flatMap_map, cubes]
  · simp [Comparison.gives?, here]

/-- All pairs of two neighbouring groups are merged into a group of the next round. -/
theorem filterMap_gives? (groups : Groups) (group : Nat) :
    (comparisons groups).filterMap (·.gives? group) =
      (groups.getD group []).flatMap fun a => (groups.getD (group + 1) []).filterMap a.combine? := by
  simp only [comparisons, List.filterMap_flatMap, List.filterMap_map, Function.comp_def,
    filterMap_gives?_neighbours]
  rw [flatMap_zipIdx_at (groups.zip groups.tail)
    fun pair => pair.1.flatMap fun a => pair.2.filterMap a.combine?]
  rw [List.zip, List.getElem?_zipWith, List.getElem?_tail, List.getD_eq_getElem?_getD,
    List.getD_eq_getElem?_getD]
  cases groups[group]? with
  | none => rfl
  | some lows =>
    cases groups[group + 1]? with
    | none => simp
    | some highs => rfl

/-! ## Rounds -/

variable {terms : IndexSet} {width free bound : Nat}

/-- A merged cube is filed in a group of the next round, and all of them are. -/
theorem any_isSome_result?_iff : (comparisons groups).any (·.result?.isSome) = true ↔
    ∃ group c, c ∈ (comparisons groups).filterMap (·.gives? group) := by
  rw [List.any_eq_true]
  constructor
  · rintro ⟨comparison, listed, success⟩
    obtain ⟨c, result⟩ := Option.isSome_iff_exists.mp success
    exact ⟨comparison.group, c, List.mem_filterMap.mpr ⟨comparison, listed, (if_pos rfl).trans result⟩⟩
  · rintro ⟨group, c, member⟩
    obtain ⟨comparison, listed, result⟩ := List.mem_filterMap.mp member
    refine ⟨comparison, listed, ?_⟩
    rw [Comparison.gives?] at result
    split at result
    · exact Option.isSome_of_eq_some result
    · cases result

section Round

variable (round : Round terms width free groups) (sorted : Sorted groups)

include round sorted

/-- What comparisons file in a group is the group that leading pairs give. -/
theorem toList_filed (group : Nat) :
    (CubeList.ofList ((comparisons groups).filterMap (·.gives? group))).toList =
      (advance groups).getD group [] := by
  rw [filterMap_gives?, getD_advance]
  exact round.mergeGroups_eq sorted group

theorem next_tablesAfter :
    (tablesAfter groups (comparisons groups)).next.map (·.toList) = advance groups := by
  refine List.ext_getElem (by simp [tablesAfter]) fun group left right => ?_
  rw [← List.getD_eq_getElem _ [] right, ← toList_filed round sorted group]
  simp [tablesAfter]

theorem merged_tablesAfter : (tablesAfter groups (comparisons groups)).merged =
    !(advance groups).all List.isEmpty := by
  have filed (group : Nat) (c : Cube) : c ∈ (comparisons groups).filterMap (·.gives? group) ↔
      c ∈ (advance groups).getD group [] := by
    rw [← toList_filed round sorted group, ← CubeList.mem_ofList]
    rfl
  rw [Bool.eq_iff_iff, Bool.not_eq_true', List.all_eq_false, tablesAfter, any_isSome_result?_iff]
  simp only [filed]
  constructor
  · rintro ⟨group, c, member⟩
    obtain ⟨position, cubes, listed, here⟩ := mem_getD_iff.mp member
    exact ⟨cubes, List.mem_of_getElem? listed, fun empty =>
      List.ne_nil_of_mem (List.mem_of_getElem? here) (List.isEmpty_iff.mp empty)⟩
  · rintro ⟨cubes, listed, filled⟩
    obtain ⟨group, here⟩ := List.getElem?_of_mem listed
    obtain ⟨c, member⟩ := List.exists_mem_of_ne_nil cubes (mt List.isEmpty_iff.mpr filled)
    obtain ⟨position, there⟩ := List.getElem?_of_mem member
    exact ⟨group, c, mem_getD_iff.mpr ⟨position, cubes, here, there⟩⟩

/-- A round finds every entry that it looks for. It leaves the cubes that are not merged, and the groups
of the next round are those that leading pairs give. -/
theorem round?_eq (primes : CubeList) : round? groups primes =
    some (primes.extend (unmerged [] groups),
      if (advance groups).all List.isEmpty then none else some (advance groups)) := by
  have left : unmarked groups (tablesAfter groups (comparisons groups)).marks = unmerged [] groups := by
    refine unmarked_marksOf fun group position c isAt => ?_
    rw [Bool.eq_iff_iff, any_marks_iff isAt, Bool.or_eq_true, List.any_eq_true, List.any_eq_true]
  rw [round?, foldlM_compare?, Option.map_some, left, next_tablesAfter round sorted,
    merged_tablesAfter round sorted]
  cases (advance groups).all List.isEmpty <;> rfl

end Round

/-! ## The whole search -/

theorem Round.filed (round : Round terms width free groups) (ne_nil : groups ≠ [])
    (length : groups.length = width + 1 - free) : Filed width free groups := by
  have member {ones : Nat} {group : List Cube} (listed : groups[ones]? = some group) :
      ∀ c ∈ group, IsMember terms width free ones c.pattern := by
    intro c here
    have found : c ∈ groups.getD ones [] := by
      rwa [List.getD_eq_getElem?_getD, listed, Option.getD_some]
    obtain ⟨p, isMember, rfl⟩ := (round.mem_iff ones c).mp found
    exact isMember
  have each {group : List Cube} (listed : group ∈ groups) (c : Cube) (here : c ∈ group) :
      ∃ ones < groups.length, IsMember terms width free ones c.pattern := by
    obtain ⟨ones, found⟩ := List.getElem?_of_mem listed
    exact ⟨ones, (List.getElem?_eq_some_iff.mp found).1, member found c here⟩
  refine ⟨ne_nil, length, fun group listed c here => ?_, fun group listed c here => ?_,
    fun group listed c here => ?_, fun ones group listed c here => (member listed c here).ones_eq⟩
  all_goals obtain ⟨ones, inside, isMember⟩ := each listed c here
  · exact isMember.length_eq
  · exact isMember.dashes_eq
  · rw [isMember.ones_eq]
    exact Nat.le_sub_one_of_lt inside

/-- Two cubes of a round that can be merged are in neighbouring groups, so that no other pairs need to
be compared. -/
theorem Filed.neighbours {low high : Nat} {lows highs : List Cube} {a b : Cube}
    (filed : Filed width free groups) (first : groups[low]? = some lows)
    (second : groups[high]? = some highs) (left : a ∈ lows) (right : b ∈ highs)
    (merges : a.merges b = true) : high = low + 1 ∨ low = high + 1 := by
  obtain ⟨m, merged⟩ := Option.isSome_iff_exists.mp merges
  have counts := (Pattern.merge?_eq_some_iff.mp merged).ones_eq
  rw [filed.ones_eq low lows first a left, filed.ones_eq high highs second b right] at counts
  omega

theorem ne_nil_of_not_all_isEmpty (filled : ¬ groups.all List.isEmpty = true) : groups ≠ [] :=
  fun none => filled (none ▸ rfl)

/-- A round starts with one group less than the one before it, and never without any. -/
theorem length_of_getElem?_rounds {later : Groups} {index : Nat} (ne_nil : groups ≠ [])
    (listed : (rounds bound groups)[index]? = some later) :
    later ≠ [] ∧ later.length = groups.length - index := by
  induction bound generalizing groups index with
  | zero => cases listed
  | succ bound ih =>
    rw [rounds] at listed
    cases index with
    | zero =>
      obtain rfl := Option.some.inj listed
      exact ⟨ne_nil, rfl⟩
    | succ index =>
      rw [List.getElem?_cons_succ] at listed
      split at listed
      · cases listed
      · rename_i filled
        obtain ⟨nonempty, length⟩ := ih (ne_nil_of_not_all_isEmpty filled) listed
        rw [length_advance, Nat.sub_sub, Nat.add_comm 1 index] at length
        exact ⟨nonempty, length⟩

theorem length_rounds_le (bound : Nat) (groups : Groups) : (rounds bound groups).length ≤ bound := by
  induction bound generalizing groups with
  | zero => exact Nat.le_refl 0
  | succ bound ih =>
    rw [rounds, List.length_cons]
    refine Nat.succ_le_succ ?_
    split
    · exact Nat.zero_le bound
    · exact ih (advance groups)

/-- With a round for each group to begin with, the search comes to an end. -/
theorem searches_rounds (round : Round terms width free groups) (sorted : Sorted groups)
    (ne_nil : groups ≠ []) (enough : groups.length ≤ bound) (primes : CubeList) :
    Searches groups primes (rounds bound groups)
      (primes.extend ((rounds bound groups).flatMap (unmerged []))) := by
  induction bound generalizing free groups primes with
  | zero => exact absurd (List.length_eq_zero_iff.mp (Nat.le_zero.mp enough)) ne_nil
  | succ bound ih =>
    have step := round?_eq round sorted primes
    rw [rounds, List.flatMap_cons]
    by_cases empty : (advance groups).all List.isEmpty = true
    · rw [if_pos empty] at step ⊢
      rw [List.flatMap_nil, List.append_nil]
      exact .last step
    · rw [if_neg empty] at step ⊢
      rw [CubeList.extend_append]
      refine .more step (ih round.advance (sorted_advance round sorted)
        (ne_nil_of_not_all_isEmpty empty) ?_ _)
      rw [length_advance]
      exact Nat.sub_le_of_le_add enough

/-- A search that comes to an end is not cut off by a bound that its rounds keep to. -/
theorem Searches.search?_eq {primes found : CubeList} {rounds : List Groups}
    (search : Searches groups primes rounds found) (enough : rounds.length ≤ bound) :
    search? bound groups primes = some found := by
  induction search generalizing bound with
  | last final =>
    cases bound with
    | zero => exact absurd enough (Nat.not_succ_le_zero _)
    | succ bound => rw [search?, final]
  | more step _ ih =>
    cases bound with
    | zero => exact absurd enough (Nat.not_succ_le_zero _)
    | succ bound =>
      rw [search?, step]
      exact ih (Nat.le_of_succ_le_succ enough)

/-- What is found and in which rounds is determined by where the search starts. -/
theorem Searches.deterministic {primes found other : CubeList} {rounds others : List Groups}
    (search : Searches groups primes rounds found) (again : Searches groups primes others other) :
    others = rounds ∧ other = found := by
  induction search generalizing others other with
  | last final =>
    cases again with
    | last again => exact ⟨rfl, congrArg Prod.fst (Option.some.inj (again.symm.trans final))⟩
    | more step _ => cases step.symm.trans final
  | more step _ ih =>
    cases again with
    | last again => cases again.symm.trans step
    | more again rest =>
      cases again.symm.trans step
      obtain ⟨rfl, rfl⟩ := ih rest
      exact ⟨rfl, rfl⟩

/-- From the groups of the first round, the search finds the primes within its bound. -/
theorem search?_start (inside : ∀ t ∈ terms, t < 2 ^ width) :
    search? (width + 1) (start terms width) ∅ = some (primes terms width) := by
  have length : (start terms width).length = width + 1 := length_start terms width
  have search := searches_rounds (round_start inside) (sorted_start inside)
    (List.ne_nil_of_length_pos (length ▸ Nat.succ_pos width)) length.le ∅
  exact search.search?_eq (length_rounds_le (width + 1) _)

/-- The search with tables is total. Every minterm has a group, every round finds the entries that it
looks for, and there is a last round: at most one for each number of variables that may be free. Each
round starts with at least one group and with its cubes filed in their groups. -/
theorem search_total (inside : ∀ t ∈ terms, t < 2 ^ width) :
    let groups := start terms width
    let all := rounds (width + 1) groups
    fileAll? terms width = some groups ∧ Searches groups ∅ all (primes terms width) ∧
      (∀ others found, Searches groups ∅ others found → others = all ∧ found = primes terms width) ∧
      all.length ≤ width + 1 ∧
      ∀ free later, all[free]? = some later → Filed width free later := by
  intro groups all
  have round := round_start inside
  have sorted := sorted_start inside
  have length : groups.length = width + 1 := length_start terms width
  have ne_nil : groups ≠ [] := List.ne_nil_of_length_pos (length ▸ Nat.succ_pos width)
  have search : Searches groups ∅ all (primes terms width) :=
    searches_rounds round sorted ne_nil length.le ∅
  refine ⟨fileAll?_eq terms width, search, fun others found again => search.deterministic again,
    length_rounds_le (width + 1) groups, fun free later listed => ?_⟩
  have own := (round.of_getElem?_rounds sorted listed).1
  obtain ⟨nonempty, count⟩ := length_of_getElem?_rounds ne_nil listed
  rw [Nat.zero_add] at own
  exact own.filed nonempty (count.trans (length ▸ rfl))

theorem search_total_overlap :
    let terms : IndexSet := .ofList [0, 1, 2, 3, 7]
    let all := rounds 4 (start terms 3)
    (∀ t ∈ terms, t < 2 ^ 3) ∧ fileAll? terms 3 = some (start terms 3) ∧
      Searches (start terms 3) ∅ all (primes terms 3) ∧
      (primes terms 3).toList = [.ofPattern [none, some true, some true],
        .ofPattern [some false, none, none]] ∧
      all.map (·.map List.length) = [[1, 2, 1, 1], [2, 2, 1], [1, 0]] ∧
      ∀ later, all[2]? = some later → Filed 3 2 later := by
  intro terms all
  have inside : ∀ t ∈ terms.toList, t < 2 ^ 3 := by decide
  obtain ⟨files, search, _, _, filed⟩ := search_total inside
  exact ⟨inside, files, search, by decide +kernel, by decide +kernel, filed 2⟩

end PrimeSearch

end Switching
