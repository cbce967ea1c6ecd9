import Switching.Proofs.Cover

/-! # Essential cubes

A list of cubes needs a cube for a minterm when the others do not cover it (`Needs`). The essential
cubes of a chart are those that are needed for one of its minterms. They are listed by the smallest
minterm that each is needed for, and no choice of cubes that covers as much as the whole list does
can do without them (`essentials_build_exact`).
-/

namespace Switching

namespace CubeList

variable {list : CubeList} {position minterm : Nat}

/-- Only the cube at the position covers a minterm that it is needed for. -/
theorem Needs.eq_of_covers (needs : list.Needs position minterm) {place : Nat} {c : Cube}
    (listed : list.get? place = some c) (covers : c.covers minterm = true) : place = position := by
  by_contra different
  have missed := needs.2 c (List.mem_eraseIdx_iff_getElem?.mpr ⟨place, different, listed⟩)
  rw [covers] at missed
  cases missed

theorem sorted_covering (list : CubeList) (minterm : Nat) :
    (list.covering minterm).Pairwise (· < ·) := by
  apply List.pairwise_filterMap.mpr
  apply list.sorted_zipIdx.imp
  intro first second less a found b next
  rw [Option.ite_none_right_eq_some, Option.some.injEq] at found next
  rw [← found.2, ← next.2]
  exact less

/-- A cube is needed when it alone covers the minterm. -/
theorem covering_eq_singleton_iff : list.covering minterm = [position] ↔
    list.Needs position minterm := by
  have distinct : (list.covering minterm).Nodup := (sorted_covering list minterm).imp Nat.ne_of_lt
  rw [← List.perm_singleton, List.perm_ext_iff_of_nodup distinct (List.nodup_singleton _)]
  simp only [List.mem_singleton, mem_covering]
  constructor
  · intro only
    obtain ⟨c, listed, covers⟩ := (only position).mpr rfl
    refine ⟨⟨c, List.mem_of_getElem? listed, covers⟩, fun d member => ?_⟩
    obtain ⟨other, different, found⟩ := List.mem_eraseIdx_iff_getElem?.mp member
    rw [Bool.eq_false_iff]
    intro covered
    exact different ((only other).mp ⟨d, found, covered⟩)
  · intro needs other
    constructor
    · rintro ⟨d, found, covered⟩
      exact needs.eq_of_covers found covered
    · rintro rfl
      obtain ⟨c, member, covers⟩ := needs.1
      obtain ⟨place, listed⟩ := List.mem_iff_getElem?.mp member
      obtain rfl := needs.eq_of_covers listed covers
      exact ⟨c, listed, covers⟩

end CubeList

namespace Chart

variable {cubes : CubeList} {minterms : IndexSet} {position : Nat}

theorem mem_essentials_iff_needs : position ∈ (build cubes minterms).essentials ↔
    ∃ m ∈ minterms, cubes.Needs position m := by
  simp only [mem_essentials_build, CubeList.covering_eq_singleton_iff]

/-- The minterms of a chart are those that it was built for, each once and smallest first. -/
theorem mem_minterms_build {given : List Nat} {m : Nat} :
    m ∈ (build cubes (.ofList given)).minterms ↔ m ∈ given := by
  rw [minterms_build, IndexSet.mem_toList, IndexSet.mem_ofList]

/-! ## The order of the essential cubes -/

/-- The first minterm that only one cube covers comes earlier than for another cube. -/
def EssentialBefore (cubes : CubeList) (minterms : IndexSet) (a b : Nat) : Prop :=
  ∃ m ∈ minterms, cubes.covering m = [a] ∧
    ∀ other ∈ minterms, cubes.covering other = [b] → m < other

/-- Distinct values are listed by the first index at which each is taken. -/
theorem pairwise_eraseDups {indices : List Nat} (sorted : indices.Pairwise (· < ·))
    (value? : Nat → Option Nat) : (indices.filterMap value?).eraseDups.Pairwise fun a b =>
      ∃ m ∈ indices, value? m = some a ∧ ∀ other ∈ indices, value? other = some b → m < other := by
  induction indices generalizing value? with
  | nil => exact .nil
  | cons first rest ih =>
    obtain ⟨below, sorted⟩ := List.pairwise_cons.mp sorted
    cases found : value? first with
    | none =>
      rw [List.filterMap_cons_none found]
      refine (ih sorted value?).imp ?_
      rintro a b ⟨m, member, taken, earlier⟩
      refine ⟨m, List.mem_cons_of_mem _ member, taken, fun other listed same => ?_⟩
      rcases List.mem_cons.mp listed with rfl | later
      · rw [found] at same
        cases same
      · exact earlier other later same
    | some value =>
      -- What follows is the list of the values other than the first one.
      let others? (m : Nat) : Option Nat := (value? m).filter (!· == value)
      have others_eq {m a : Nat} : others? m = some a ↔ value? m = some a ∧ a ≠ value := by
        simp [others?, Option.filter_eq_some_iff]
      have rest_eq : (rest.filterMap value?).filter (!· == value) = rest.filterMap others? :=
        List.filter_filterMap
      rw [List.filterMap_cons_some found, List.eraseDups_cons, rest_eq, List.pairwise_cons]
      have different {a : Nat} (member : a ∈ (rest.filterMap others?).eraseDups) : a ≠ value := by
        obtain ⟨m, _, taken⟩ := List.mem_filterMap.mp (List.mem_eraseDups.mp member)
        exact (others_eq.mp taken).2
      have not_first {b : Nat} (other : b ≠ value) : value? first ≠ some b := fun same =>
        other (Option.some.inj (same.symm.trans found))
      constructor
      · intro b member
        refine ⟨first, List.mem_cons_self .., found, fun other listed same => ?_⟩
        rcases List.mem_cons.mp listed with rfl | later
        · exact absurd same (not_first (different member))
        · exact below other later
      · refine (ih sorted others?).imp_of_mem fun {a b} _ right ⟨m, member, taken, earlier⟩ => ?_
        refine ⟨m, List.mem_cons_of_mem _ member, (others_eq.mp taken).1, fun other listed same => ?_⟩
        rcases List.mem_cons.mp listed with rfl | later
        · exact absurd same (not_first (different right))
        · exact earlier other later (others_eq.mpr ⟨same, different right⟩)

theorem pairwise_essentials (cubes : CubeList) (minterms : IndexSet) :
    (build cubes minterms).essentials.Pairwise (EssentialBefore cubes minterms) := by
  have ordered := pairwise_eraseDups minterms.sorted fun m => single? (cubes.covering m)
  simp only [single?_eq_some_iff] at ordered
  rw [essentials, build, buildBy, List.filterMap_map]
  exact ordered

theorem EssentialBefore.asymm {a b : Nat} (before : EssentialBefore cubes minterms a b) :
    ¬ EssentialBefore cubes minterms b a := by
  rintro ⟨j, memberJ, onlyJ, belowI⟩
  obtain ⟨i, memberI, onlyI, belowJ⟩ := before
  exact Nat.lt_asymm (belowJ j memberJ onlyJ) (belowI i memberI onlyI)

/-- A chart has a row for each of the given minterms, smallest first. Its essential cubes are those
without which fewer of these minterms are covered. Each is listed once, in the order of the smallest
minterm that it is needed for. Every set of positions that covers all of the minterms that can be covered
contains those of the essential cubes. -/
theorem essentials_build_exact (cubes : CubeList) (minterms : List Nat) :
    let chart := build cubes (.ofList minterms)
    (∀ m, m ∈ chart.minterms ↔ m ∈ minterms) ∧ chart.minterms.Pairwise (· < ·) ∧
    (∀ position, position ∈ chart.essentials ↔ ∃ m ∈ minterms, cubes.Needs position m) ∧
    chart.essentials.Nodup ∧
    (chart.essentials.Pairwise fun first second => ∃ m n,
      IsLeast {m | m ∈ minterms ∧ cubes.Needs first m} m ∧
      IsLeast {n | n ∈ minterms ∧ cubes.Needs second n} n ∧ m < n) ∧
    ∀ chosen : Set Nat,
      (∀ m ∈ minterms, (∃ c ∈ cubes.toList, c.covers m = true) →
        ∃ position ∈ chosen, ∃ c, cubes.get? position = some c ∧ c.covers m = true) →
      ∀ position ∈ chart.essentials, position ∈ chosen := by
  intro chart
  have needed (position : Nat) :
      position ∈ chart.essentials ↔ ∃ m ∈ minterms, cubes.Needs position m := by
    simp only [chart, mem_essentials_iff_needs, IndexSet.mem_ofList]
  refine ⟨fun m => mem_minterms_build, ?_, needed, nodup_essentials chart, ?_,
    fun chosen covering position member => ?_⟩
  · rw [minterms_build]
    exact IndexSet.sorted _
  · have least (position : Nat) (member : position ∈ chart.essentials) :
        ∃ m, IsLeast {m | m ∈ minterms ∧ cubes.Needs position m} m := by
      have reason := (needed position).mp member
      exact ⟨Nat.find reason, Nat.find_spec reason, fun _ => Nat.find_min' reason⟩
    apply (pairwise_essentials cubes (.ofList minterms)).imp_of_mem
    rintro first second member next ⟨reason, inside, only, before⟩
    obtain ⟨m, smallest⟩ := least first member
    obtain ⟨n, isLeast⟩ := least second next
    refine ⟨m, n, smallest, isLeast, ?_⟩
    calc m ≤ reason :=
          smallest.2 ⟨IndexSet.mem_ofList.mp inside, CubeList.covering_eq_singleton_iff.mp only⟩
      _ < n := before n (IndexSet.mem_ofList.mpr isLeast.1.1)
          (CubeList.covering_eq_singleton_iff.mpr isLeast.1.2)
  · obtain ⟨m, row, needs⟩ := (needed position).mp member
    obtain ⟨place, picked, c, listed, covers⟩ := covering m row needs.1
    obtain rfl := needs.eq_of_covers listed covers
    exact picked

end Chart

end Switching
