import Switching.Proofs.PrimeSearch.Order

/-! # All pairs of neighbouring groups

A round is built only from the pairs that free a leading position. Merging all pairs one after the
other, without listing a cube twice, gives the same cubes in the same order (`getD_advance_eq`): what
another pair gives has been found before, from its own first half.
-/

namespace Switching

namespace Pattern

variable {p q m : Pattern}

theorem eq_or_leads (same : p.length = q.length) : p = q ∨ p.Leads q ∨ q.Leads p := by
  by_cases equal : ∀ index, index ∈ p.covered ↔ index ∈ q.covered
  · exact .inl (eq_of_covered same (fun index => (equal index).mp) fun index => (equal index).mpr)
  · right
    -- The first index that makes a difference belongs to one of the two.
    have different := not_forall.mp equal
    have differs := Nat.find_spec different
    have below : ∀ lower < Nat.find different, lower ∈ p.covered ↔ lower ∈ q.covered :=
      fun lower less => not_not.mp (Nat.find_min different less)
    by_cases inside : Nat.find different ∈ p.covered
    · exact .inl ⟨_, inside, fun covered => differs (iff_of_true inside covered), below⟩
    · have covered : Nat.find different ∈ q.covered := by
        by_contra outside
        exact differs (iff_of_false inside outside)
      exact .inr ⟨_, covered, inside, fun lower less => (below lower less).symm⟩

/-- A pattern is merged from its first half and another one, or else its first half comes first. -/
theorem Merged.eq_or_leads (merged : Merged p q m) :
    p = m.fixLeading false ∨ (m.fixLeading false).Leads p := by
  have free : 0 < m.dashes := merged.dashes_eq ▸ Nat.succ_pos _
  have halves := merged_of_mergeLeading? (mergeLeading?_fixLeading free)
  rcases Pattern.eq_or_leads (merged.length_eq.trans halves.length_eq.symm) with equal | first | later
  · exact .inl equal
  · obtain ⟨index, inside, outside, below⟩ := first
    have equal : p.dashes = (m.fixLeading false).dashes :=
      Nat.succ.inj (merged.dashes_eq.symm.trans halves.dashes_eq)
    obtain ⟨other, covered, above⟩ :=
      exists_above (merged.length_eq.trans halves.length_eq.symm) equal inside outside below
    have high : index ∈ (m.fixLeading true).covered :=
      ((mem_covered_halves free).mp (merged.mem_covered_iff.mpr (.inl inside))).resolve_left outside
    exact absurd (lt_of_mem_halves free covered high) (Nat.lt_asymm above)
  · exact .inr later

end Pattern

namespace CubeList

theorem toList_ofList_concat (cubes : List Cube) (c : Cube) : (ofList (cubes ++ [c])).toList =
    if c ∈ ofList cubes then (ofList cubes).toList else (ofList cubes).toList ++ [c] := by
  rw [ofList, extend, List.foldl_append]
  exact toList_push ..

/-- If whatever an item gives has been found before, apart from a few items, these give the distinct
cubes in order. -/
theorem toList_ofList_filterMap {α : Type} {before : α → α → Prop} {every few : α → Option Cube}
    {items : List α} (part : ∀ a c, few a = some c → every a = some c)
    (strict : ∀ a, ¬ before a a) (order : items.Pairwise fun a b => ¬ before b a)
    (distinct : (items.filterMap few).Nodup)
    (found : ∀ a ∈ items, ∀ c, every a = some c → few a = some c ∨
      ∃ first ∈ items, few first = some c ∧ before first a) :
    (ofList (items.filterMap every)).toList = items.filterMap few := by
  induction items using List.reverseRecOn with
  | nil => rfl
  | append_singleton items a ih =>
    rw [List.filterMap_append, List.nodup_append] at distinct
    obtain ⟨order, _, last⟩ := List.pairwise_append.mp order
    have inner : (ofList (items.filterMap every)).toList = items.filterMap few := by
      refine ih order distinct.1 fun b member c success => ?_
      refine (found b (List.mem_append_left _ member) c success).imp_right ?_
      rintro ⟨first, listed, same, less⟩
      rcases List.mem_append.mp listed with here | here
      · exact ⟨first, here, same, less⟩
      · obtain rfl := List.mem_singleton.mp here
        exact absurd less (last b member first here)
    have listed (c : Cube) : c ∈ ofList (items.filterMap every) ↔ c ∈ items.filterMap few := by
      rw [← inner]
      rfl
    rw [List.filterMap_append, List.filterMap_append]
    cases outcome : every a with
    | none =>
      have skipped : few a = none :=
        Option.eq_none_iff_forall_ne_some.mpr fun c same => by simp [part a c same] at outcome
      simp [outcome, skipped, inner]
    | some c =>
      rw [List.filterMap_cons_some outcome, List.filterMap_nil, toList_ofList_concat, inner]
      simp only [listed]
      cases chosen : few a with
      | some d =>
        obtain rfl : d = c := Option.some.inj ((part a d chosen).symm.trans outcome)
        rw [List.filterMap_cons_some chosen] at distinct ⊢
        rw [if_neg fun member => distinct.2.2 d member d List.mem_cons_self rfl]
        rfl
      | none =>
        obtain new | ⟨first, here, same, less⟩ := found a (by simp) c outcome
        · rw [chosen] at new
          cases new
        · have earlier : first ∈ items := by
            refine (List.mem_append.mp here).resolve_right fun last => ?_
            exact strict a (List.mem_singleton.mp last ▸ less)
          rw [if_pos (List.mem_filterMap.mpr ⟨first, earlier, same⟩)]
          simp [chosen]

end CubeList

namespace PrimeSearch

open Pattern

variable {terms : IndexSet} {width free : Nat} {groups : Groups}

/-- Merging all pairs of two neighbouring groups gives the cubes of the next round in their order. -/
theorem Round.mergeGroups_eq (round : Round terms width free groups) (sorted : Sorted groups)
    (ones : Nat) :
    let low := groups.getD ones []
    let high := groups.getD (ones + 1) []
    (CubeList.ofList (low.flatMap fun a => high.filterMap a.combine?)).toList =
      mergeGroups low high := by
  intro low high
  let pairs := low.flatMap fun a => high.map (a, ·)
  have every : low.flatMap (fun a => high.filterMap a.combine?) =
      pairs.filterMap fun pair => pair.1.combine? pair.2 := by
    simp only [pairs, List.filterMap_flatMap, List.filterMap_map, Function.comp_def]
  have leading : mergeGroups low high = pairs.filterMap fun pair => pair.1.combineLeading? pair.2 := by
    simp only [mergeGroups, pairs, List.filterMap_flatMap, List.filterMap_map, Function.comp_def]
  have mem_pairs {a b : Cube} : (a, b) ∈ pairs ↔ a ∈ low ∧ b ∈ high := by
    simp [pairs]
  have order : pairs.Pairwise fun x y => ¬ y.1.pattern.Leads x.1.pattern := by
    refine List.pairwise_flatMap.mpr ⟨fun a _ => ?_, (sorted ones).imp fun {a b} leads => ?_⟩
    · exact List.pairwise_map.mpr (List.pairwise_of_forall fun _ _ leads => leads.asymm leads)
    · intro x first y second
      obtain ⟨_, _, rfl⟩ := List.mem_map.mp first
      obtain ⟨_, _, rfl⟩ := List.mem_map.mp second
      exact leads.asymm
  have distinct : (mergeGroups low high).Nodup := round.nodup_mergeGroups ones
  rw [leading] at distinct ⊢
  rw [every]
  refine CubeList.toList_ofList_filterMap (fun pair c => combine?_of_combineLeading?)
    (fun pair leads => leads.asymm leads) order distinct ?_
  rintro ⟨a, b⟩ member c success
  obtain ⟨lower, upper⟩ := mem_pairs.mp member
  obtain ⟨p, left, rfl⟩ := (round.mem_iff ones a).mp lower
  obtain ⟨q, right, rfl⟩ := (round.mem_iff (ones + 1) b).mp upper
  change (Cube.ofPattern p).combine? (.ofPattern q) = some c at success
  rw [combine?_ofPattern, Option.map_eq_some_iff] at success
  obtain ⟨m, success, rfl⟩ := success
  have merged := merge?_eq_some_iff.mp success
  have isMember := left.merged right merged
  have halves := mergeLeading?_fixLeading (merged.dashes_eq ▸ Nat.succ_pos _ : 0 < m.dashes)
  have combined : (Cube.ofPattern (m.fixLeading false)).combineLeading?
      (.ofPattern (m.fixLeading true)) = some (.ofPattern m) := by
    rw [combineLeading?_ofPattern, halves, Option.map_some]
  rcases merged.eq_or_leads with rfl | leads
  · obtain rfl : q = m.fixLeading true := merged.right_unique (merged_of_mergeLeading? halves)
    exact .inl combined
  · refine .inr ⟨(.ofPattern (m.fixLeading false), .ofPattern (m.fixLeading true)), ?_, combined, leads⟩
    exact mem_pairs.mpr ⟨(round.mem_iff ones _).mpr ⟨_, isMember.fixLeading false, rfl⟩,
      (round.mem_iff (ones + 1) _).mpr ⟨_, isMember.fixLeading true, rfl⟩⟩

/-- What holds of the first round holds of all, with one more free position in each of them. -/
theorem Round.of_getElem?_rounds {bound index : Nat} {later : Groups}
    (round : Round terms width free groups) (sorted : Sorted groups)
    (listed : (rounds bound groups)[index]? = some later) :
    Round terms width (free + index) later ∧ Sorted later := by
  induction bound generalizing free groups index with
  | zero => cases listed
  | succ bound ih =>
    rw [rounds] at listed
    cases index with
    | zero =>
      obtain rfl := Option.some.inj listed
      exact ⟨round, sorted⟩
    | succ index =>
      rw [List.getElem?_cons_succ] at listed
      split at listed
      · cases listed
      · rw [Nat.add_comm index 1, ← Nat.add_assoc]
        exact ih round.advance (sorted_advance round sorted) listed

/-- Throughout the search, each group of the next round is what merging all pairs gives. -/
theorem getD_advance_eq {bound : Nat} (inside : ∀ t ∈ terms, t < 2 ^ width)
    (member : groups ∈ rounds bound (start terms width)) (ones : Nat) :
    (advance groups).getD ones [] = (CubeList.ofList ((groups.getD ones []).flatMap fun a =>
      (groups.getD (ones + 1) []).filterMap a.combine?)).toList := by
  obtain ⟨index, listed⟩ := List.getElem?_of_mem member
  obtain ⟨round, sorted⟩ := (round_start inside).of_getElem?_rounds (sorted_start inside) listed
  rw [getD_advance]
  exact (round.mergeGroups_eq sorted ones).symm

end PrimeSearch

end Switching
