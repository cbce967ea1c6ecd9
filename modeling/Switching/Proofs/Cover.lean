import Mathlib
import Switching.Cover

/-! # Selecting a cover, step by step

The cube that is added is the next one in the sense of `IsNext` (`isNext_of_next?`). `Run` is a whole
selection, which ends when nothing remains. If every
minterm is covered by some cube, the selection is such a run (`run_select`): the bound on its length
never cuts it off, and it never stops because nothing helps.
-/

namespace Switching

theorem CubeList.mem_positions {list : CubeList} {test : Cube → Bool} {position : Nat} :
    position ∈ list.positions test ↔ ∃ c, list.get? position = some c ∧ test c = true := by
  simp only [positions, List.mem_filterMap, Option.ite_none_right_eq_some, Option.some.injEq,
    Prod.exists, List.mem_zipIdx_iff_getElem?, get?]
  constructor
  · rintro ⟨c, _, listed, passes, rfl⟩
    exact ⟨c, listed, passes⟩
  · rintro ⟨c, listed, passes⟩
    exact ⟨c, position, listed, passes, rfl⟩

theorem CubeList.mem_covering {list : CubeList} {position index : Nat} :
    position ∈ list.covering index ↔ ∃ c, list.get? position = some c ∧ c.covers index = true :=
  mem_positions

/-- The cubes are listed with increasing positions. -/
theorem CubeList.sorted_zipIdx (list : CubeList) : list.toList.zipIdx.Pairwise (·.2 < ·.2) := by
  apply List.pairwise_map.mp
  rw [List.zipIdx_map_snd]
  exact List.pairwise_lt_range'

/-- Positions with a cube are those within the list. -/
theorem CubeList.lt_size_of_get? {list : CubeList} {position : Nat} {c : Cube}
    (listed : list.get? position = some c) : position < list.size :=
  (List.getElem?_eq_some_iff.mp listed).1

namespace Chart

theorem nodup_eraseDups (positions : List Nat) : positions.eraseDups.Nodup := by
  induction size : positions.length using Nat.strongRecOn generalizing positions with
  | ind size ih =>
    cases positions with
    | nil => simp
    | cons first rest =>
      rw [List.eraseDups_cons]
      have shorter := List.length_filter_le (fun other => !other == first) rest
      refine List.nodup_cons.mpr ⟨fun member => ?_, ih _ ?_ _ rfl⟩
      · simpa using List.mem_eraseDups.mp member
      · rw [← size, List.length_cons]
        omega

theorem nodup_essentials (chart : Chart) : chart.essentials.Nodup :=
  nodup_eraseDups _

theorem single?_eq_some_iff {positions : List Nat} {position : Nat} :
    single? positions = some position ↔ positions = [position] := by
  match positions with
  | [] => simp [single?]
  | [_] => simp [single?]
  | _ :: _ :: _ => simp [single?]

/-- An essential cube is the only one that covers some minterm. -/
theorem mem_essentials_buildBy {covers : Cube → Nat → Bool} {cubes : CubeList} {minterms : IndexSet}
    {position : Nat} : position ∈ (buildBy covers cubes minterms).essentials ↔
      ∃ m ∈ minterms, cubes.positions (covers · m) = [position] := by
  simp only [essentials, buildBy, List.mem_eraseDups, List.filterMap_map, List.mem_filterMap,
    Function.comp_apply, single?_eq_some_iff, IndexSet.mem_toList]

theorem mem_essentials_build {cubes : CubeList} {minterms : IndexSet} {position : Nat} :
    position ∈ (build cubes minterms).essentials ↔
      ∃ m ∈ minterms, cubes.covering m = [position] :=
  mem_essentials_buildBy

end Chart

namespace Cover

variable {covers : Cube → Nat → Bool} {cubes : CubeList} {chosen remaining result : List Nat}
  {position : Nat}

theorem mem_uncovered {minterms : List Nat} {m : Nat} :
    m ∈ uncovered covers cubes chosen minterms ↔ m ∈ minterms ∧
      ∀ position ∈ chosen, ∀ c, cubes.get? position = some c → covers c m = false := by
  simp only [uncovered, List.mem_filter, Bool.not_eq_true', List.any_eq_false, Bool.not_eq_true]
  refine and_congr_right fun _ => forall₂_congr fun position _ => ?_
  cases cubes.get? position <;> simp

/-- What remains is what the chosen cubes miss. -/
theorem missed_eq_uncovered (chosen minterms : List Nat) :
    missed covers cubes chosen minterms = uncovered covers cubes chosen minterms := by
  have none_covers (m position : Nat) : (cubes.get? position).all (!covers · m) =
      !(cubes.get? position).any (covers · m) := by
    cases cubes.get? position <;> rfl
  simp only [missed, uncovered, none_covers, List.not_any_eq_all_not]

/-! ## One step -/

/-- What is kept of some entries: the first one with the largest number, unless all numbers are 0. -/
def IsBest (entries : List (Nat × Nat)) : Option (Nat × Nat) → Prop
  | none => ∀ entry ∈ entries, entry.2 = 0
  | some best => best ∈ entries ∧ 0 < best.2 ∧
      ∀ entry ∈ entries, entry.2 < best.2 ∨ entry.2 = best.2 ∧ best.1 ≤ entry.1

theorem isBest_foldl {entries : List (Nat × Nat)} (sorted : entries.Pairwise (·.1 < ·.1)) :
    IsBest entries (entries.foldl better none) := by
  induction entries using List.reverseRecOn with
  | nil => exact fun entry member => absurd member List.not_mem_nil
  | append_singleton entries last ih =>
    rw [List.pairwise_append] at sorted
    obtain ⟨sorted, _, ordered⟩ := sorted
    have ih := ih sorted
    rw [List.foldl_append, List.foldl_cons, List.foldl_nil]
    have both {P : Nat × Nat → Prop} (before : ∀ entry ∈ entries, P entry) (at_last : P last) :
        ∀ entry ∈ entries ++ [last], P entry := by
      intro entry member
      rcases List.mem_append.mp member with member | member
      · exact before entry member
      · exact List.mem_singleton.mp member ▸ at_last
    have last_mem : last ∈ entries ++ [last] := by simp
    cases kept : entries.foldl better none with
    | none =>
      rw [kept] at ih
      by_cases positive : 0 < last.2
      · rw [better, Option.elim_none, if_pos positive]
        exact ⟨last_mem, positive,
          both (fun entry member => .inl (ih entry member ▸ positive)) (.inr ⟨rfl, Nat.le_refl _⟩)⟩
      · rw [better, Option.elim_none, if_neg positive]
        exact both ih (by omega)
    | some best =>
      rw [kept] at ih
      obtain ⟨member, positive, largest⟩ := ih
      by_cases larger : best.2 < last.2
      · rw [better, Option.elim_some, if_pos larger]
        refine ⟨last_mem, by omega, both (fun entry member => .inl ?_) (.inr ⟨rfl, Nat.le_refl _⟩)⟩
        have := largest entry member
        omega
      · rw [better, Option.elim_some, if_neg larger]
        refine ⟨List.mem_append_left _ member, positive, both largest ?_⟩
        have before := ordered best member last (List.mem_singleton_self _)
        omega

/-- The cubes that are not chosen, each with the number of remaining minterms that it covers. -/
def counts (covers : Cube → Nat → Bool) (cubes : CubeList) (chosen remaining : List Nat) :
    List (Nat × Nat) :=
  (cubes.toList.zipIdx.filter (·.2 ∉ chosen)).map fun entry =>
    (entry.2, remaining.countP (covers entry.1))

theorem mem_counts {entry : Nat × Nat} :
    entry ∈ counts covers cubes chosen remaining ↔ entry.1 ∉ chosen ∧
      ∃ c, cubes.get? entry.1 = some c ∧ remaining.countP (covers c) = entry.2 := by
  obtain ⟨position, count⟩ := entry
  simp only [counts, List.mem_map, List.mem_filter, Prod.exists, List.mem_zipIdx_iff_getElem?,
    decide_eq_true_eq, Prod.mk.injEq, CubeList.get?]
  constructor
  · rintro ⟨c, _, ⟨listed, fresh⟩, rfl, rfl⟩
    exact ⟨fresh, c, listed, rfl⟩
  · rintro ⟨fresh, c, listed, rfl⟩
    exact ⟨c, position, ⟨listed, fresh⟩, rfl, rfl⟩

theorem sorted_counts (covers : Cube → Nat → Bool) (cubes : CubeList) (chosen remaining : List Nat) :
    (counts covers cubes chosen remaining).Pairwise (·.1 < ·.1) :=
  List.pairwise_map.mpr (cubes.sorted_zipIdx.filter _)

theorem isNext_of_next? (found : next? covers cubes chosen remaining = some position) :
    IsNext covers cubes chosen remaining position := by
  have best := isBest_foldl (sorted_counts covers cubes chosen remaining)
  obtain ⟨entry, kept, rfl⟩ := Option.map_eq_some_iff.mp found
  change (counts covers cubes chosen remaining).foldl better none = some entry at kept
  rw [kept] at best
  obtain ⟨member, positive, largest⟩ := best
  obtain ⟨fresh, c, listed, count⟩ := mem_counts.mp member
  refine ⟨fresh, c, listed, count ▸ positive, fun other d listed fresh => ?_⟩
  rw [count]
  exact largest (other, _) (mem_counts.mpr ⟨fresh, d, listed, rfl⟩)

/-- If there is nothing to add, no cube covers anything that remains. -/
theorem countP_of_next?_eq_none (stuck : next? covers cubes chosen remaining = none) {c : Cube}
    (listed : cubes.get? position = some c) (fresh : position ∉ chosen) :
    remaining.countP (covers c) = 0 := by
  have best := isBest_foldl (sorted_counts covers cubes chosen remaining)
  have kept := Option.map_eq_none_iff.mp stuck
  change (counts covers cubes chosen remaining).foldl better none = none at kept
  rw [kept] at best
  exact best (position, _) (mem_counts.mpr ⟨fresh, c, listed, rfl⟩)

/-- Less remains when a cube is added that covers something. -/
theorem length_uncovered_lt {c : Cube} {m : Nat} (listed : cubes.get? position = some c)
    (member : m ∈ remaining) (covered : covers c m = true) :
    (uncovered covers cubes [position] remaining).length < remaining.length := by
  apply List.length_filter_lt_length_iff_exists.mpr
  exact ⟨m, member, by simp [listed, covered]⟩

theorem IsNext.length_lt (next : IsNext covers cubes chosen remaining position) :
    (uncovered covers cubes [position] remaining).length < remaining.length := by
  obtain ⟨_, c, listed, positive, _⟩ := next
  obtain ⟨m, member, covered⟩ := List.countP_pos_iff.mp positive
  exact length_uncovered_lt listed member covered

/-- Nothing is added when nothing remains. -/
theorem IsNext.ne_nil (next : IsNext covers cubes chosen remaining position) : remaining ≠ [] := by
  rintro rfl
  exact absurd next.length_lt (Nat.not_lt_zero _)

/-- Only one cube can be the next one. -/
theorem IsNext.unique {other : Nat} (first : IsNext covers cubes chosen remaining position)
    (second : IsNext covers cubes chosen remaining other) : position = other := by
  obtain ⟨fresh, c, listed, _, most⟩ := first
  obtain ⟨freshOther, d, listedOther, _, mostOther⟩ := second
  have := most other d listedOther freshOther
  have := mostOther position c listed fresh
  omega

/-! ## A whole selection -/

/-- A selection that goes on until nothing remains. -/
inductive Run (covers : Cube → Nat → Bool) (cubes : CubeList) :
    List Nat → List Nat → List Nat → Prop where
  | done (chosen : List Nat) : Run covers cubes chosen [] chosen
  | add {chosen remaining result : List Nat} {position : Nat} :
      IsNext covers cubes chosen remaining position →
      Run covers cubes (chosen ++ [position]) (uncovered covers cubes [position] remaining) result →
      Run covers cubes chosen remaining result

/-- If cubes that are not chosen cover what remains, they are added until nothing does. -/
theorem run_complete {bound : Nat} (room : remaining.length ≤ bound)
    (coverable : ∀ m ∈ remaining, ∃ position c,
      position ∉ chosen ∧ cubes.get? position = some c ∧ covers c m = true) :
    Run covers cubes chosen remaining (complete covers cubes bound chosen remaining) := by
  induction bound generalizing chosen remaining with
  | zero =>
    obtain rfl := List.eq_nil_of_length_eq_zero (Nat.le_zero.mp room)
    exact .done chosen
  | succ bound ih =>
    rw [complete]
    cases found : next? covers cubes chosen remaining with
    | none =>
      have empty : remaining = [] := List.eq_nil_iff_forall_not_mem.mpr fun m member => by
        obtain ⟨position, c, fresh, listed, covered⟩ := coverable m member
        exact List.countP_eq_zero.mp (countP_of_next?_eq_none found listed fresh) m member covered
      subst empty
      exact .done chosen
    | some position =>
      have next := isNext_of_next? found
      have shorter := next.length_lt
      refine .add next (ih (by omega) fun m member => ?_)
      obtain ⟨member, missed⟩ := mem_uncovered.mp member
      obtain ⟨other, c, fresh, listed, covered⟩ := coverable m member
      refine ⟨other, c, fun chosen => ?_, listed, covered⟩
      rcases List.mem_append.mp chosen with old | new
      · exact fresh old
      · rw [missed other new c listed] at covered
        exact Bool.false_ne_true covered

/-- If the cubes cover every minterm of the chart, so does what is selected. -/
theorem run_select {chart : Chart}
    (coverable : ∀ m ∈ chart.minterms, ∃ position c,
      cubes.get? position = some c ∧ covers c m = true) :
    Run covers cubes chart.essentials (uncovered covers cubes chart.essentials chart.minterms)
      (select covers cubes chart) := by
  refine run_complete (Nat.le_refl _) fun m member => ?_
  obtain ⟨member, missed⟩ := mem_uncovered.mp member
  obtain ⟨position, c, listed, covered⟩ := coverable m member
  refine ⟨position, c, fun chosen => ?_, listed, covered⟩
  rw [missed position chosen c listed] at covered
  exact Bool.false_ne_true covered

namespace Run

/-- A selection is told by where it starts. -/
theorem unique {last : List Nat} (first : Run covers cubes chosen remaining result)
    (second : Run covers cubes chosen remaining last) : result = last := by
  induction first with
  | done chosen =>
    cases second with
    | done => rfl
    | add next _ => exact absurd rfl next.ne_nil
  | @add chosen remaining result position next rest ih =>
    cases second with
    | done => exact absurd rfl next.ne_nil
    | add other last =>
      obtain rfl := next.unique other
      exact ih last

theorem isPrefix (run : Run covers cubes chosen remaining result) : chosen <+: result := by
  induction run with
  | done => exact List.prefix_refl _
  | add _ _ ih => exact (List.prefix_append _ _).trans ih

theorem nodup (run : Run covers cubes chosen remaining result) (distinct : chosen.Nodup) :
    result.Nodup := by
  induction run with
  | done => exact distinct
  | add next _ ih =>
    refine ih (List.nodup_append.mpr ⟨distinct, List.nodup_singleton _, ?_⟩)
    rintro a member b single rfl
    exact next.1 (List.mem_singleton.mp single ▸ member)

/-- Whatever is selected is the position of a cube. -/
theorem exists_cube (run : Run covers cubes chosen remaining result)
    (valid : ∀ position ∈ chosen, ∃ c, cubes.get? position = some c) :
    ∀ position ∈ result, ∃ c, cubes.get? position = some c := by
  induction run with
  | done => exact valid
  | add next _ ih =>
    obtain ⟨_, c, listed, _⟩ := next
    refine ih fun position member => ?_
    rcases List.mem_append.mp member with old | new
    · exact valid position old
    · exact ⟨c, List.mem_singleton.mp new ▸ listed⟩

/-- Everything that remained is covered in the end. -/
theorem exists_covers (run : Run covers cubes chosen remaining result) {m : Nat} (member : m ∈ remaining) :
    ∃ position ∈ result, ∃ c, cubes.get? position = some c ∧ covers c m = true := by
  induction run with
  | done => exact absurd member List.not_mem_nil
  | @add chosen remaining result position next rest ih =>
    by_cases left : m ∈ uncovered covers cubes [position] remaining
    · exact ih left
    · obtain ⟨_, c, listed, _⟩ := next
      refine ⟨position, rest.isPrefix.subset (by simp), c, listed, ?_⟩
      by_contra missed
      refine left (mem_uncovered.mpr ⟨member, fun other single d found => ?_⟩)
      obtain rfl := List.mem_singleton.mp single
      obtain rfl := Option.some.inj (listed.symm.trans found)
      exact Bool.eq_false_iff.mpr missed

end Run

end Cover

/-! ## The test for what a cube covers -/

variable {covers other : Cube → Nat → Bool} {cubes : CubeList} {required : IndexSet}

theorem CubeList.positions_congr {list : CubeList} {test again : Cube → Bool}
    (same : ∀ c ∈ list, test c = again c) : list.positions test = list.positions again := by
  refine List.filterMap_congr fun entry member => ?_
  have listed : entry.1 ∈ list := (List.mem_zipIdx' member).2 ▸ List.getElem_mem _
  rw [same _ listed]

theorem Chart.buildBy_congr (same : ∀ m ∈ required, ∀ c ∈ cubes, covers c m = other c m) :
    buildBy covers cubes required = buildBy other cubes required := by
  rw [buildBy, buildBy, Chart.mk.injEq]
  refine List.map_congr_left fun m member => ?_
  rw [CubeList.positions_congr (same m member)]

namespace Cover

variable {chosen remaining : List Nat}

theorem uncovered_congr (same : ∀ m ∈ remaining, ∀ c ∈ cubes, covers c m = other c m) :
    uncovered covers cubes chosen remaining = uncovered other cubes chosen remaining := by
  refine List.filter_congr fun m member => ?_
  refine congrArg (!List.any chosen ·) (funext fun position => ?_)
  cases listed : cubes.get? position with
  | none => rfl
  | some c => exact same m member c (List.mem_of_getElem? listed)

theorem next?_congr (same : ∀ m ∈ remaining, ∀ c ∈ cubes, covers c m = other c m) :
    next? covers cubes chosen remaining = next? other cubes chosen remaining := by
  have counted : counts covers cubes chosen remaining = counts other cubes chosen remaining := by
    refine List.map_congr_left fun entry member => ?_
    have listed : entry.1 ∈ cubes :=
      (List.mem_zipIdx' (List.mem_filter.mp member).1).2 ▸ List.getElem_mem _
    rw [List.countP_congr fun m left => by rw [same m left _ listed]]
  exact congrArg (fun entries => (entries.foldl better none).map (·.1)) counted

theorem complete_congr {bound : Nat} (same : ∀ m ∈ remaining, ∀ c ∈ cubes, covers c m = other c m) :
    complete covers cubes bound chosen remaining = complete other cubes bound chosen remaining := by
  induction bound generalizing chosen remaining with
  | zero => rfl
  | succ bound ih =>
    rw [complete, complete, next?_congr same]
    cases next? other cubes chosen remaining with
    | none => rfl
    | some position =>
      dsimp only
      rw [uncovered_congr same]
      exact ih fun m member => same m (List.mem_filter.mp member).1

/-- The selection asks only what the listed cubes cover of the minterms of the chart. -/
theorem select_congr {chart : Chart}
    (same : ∀ m ∈ chart.minterms, ∀ c ∈ cubes, covers c m = other c m) :
    select covers cubes chart = select other cubes chart := by
  have start : uncovered covers cubes chart.essentials chart.minterms =
      uncovered other cubes chart.essentials chart.minterms := uncovered_congr same
  simp only [select, start]
  exact complete_congr fun m member => same m (List.mem_filter.mp member).1

end Cover

end Switching
