import Switching.Proofs.Cover

/-! # The turns of a selection

At each turn, the selection has chosen some cubes and some minterms remain. What a whole run tells about
its result is told turn by turn: the cube that is added at a turn is the next one for what the earlier
ones leave (`Run.isNext`), and the turns end when nothing is left (`Run.uncovered_take_eq_nil_iff`). On
the way something is always found that helps (`Run.next?_ne_none_of_reaches`). So the selection keeps to
the policy as long as some cube covers each minterm of the chart (`greedy_select`).
-/

namespace Switching.Cover

variable {covers : Cube → Nat → Bool} {cubes : CubeList} {chosen remaining result minterms : List Nat}
  {position turn : Nat}

theorem uncovered_append (first second : List Nat) : uncovered covers cubes (first ++ second) minterms =
    uncovered covers cubes second (uncovered covers cubes first minterms) := by
  simp only [uncovered, List.filter_filter, List.any_append, Bool.not_or, Bool.and_comm]

namespace Run

theorem next?_ne_none (run : Run covers cubes chosen remaining result) (left : remaining ≠ []) :
    next? covers cubes chosen remaining ≠ none := by
  intro stuck
  cases run with
  | done => exact left rfl
  | add next _ =>
    obtain ⟨fresh, c, listed, positive, _⟩ := next
    have none := countP_of_next?_eq_none stuck listed fresh
    omega

/-- From every turn on, the selection goes on as it would have from the beginning. -/
theorem of_reaches {picked left : List Nat} (run : Run covers cubes chosen remaining result)
    (reaches : Reaches covers cubes chosen remaining picked left) : Run covers cubes picked left result := by
  induction reaches with
  | start => exact run
  | add _ found ih =>
    have next := isNext_of_next? found
    cases ih with
    | done => exact absurd rfl next.ne_nil
    | add first rest =>
      obtain rfl := next.unique first
      exact rest

/-- As long as something remains, there is a cube to be added. -/
theorem next?_ne_none_of_reaches {picked left : List Nat} (run : Run covers cubes chosen remaining result)
    (reaches : Reaches covers cubes chosen remaining picked left) (some : left ≠ []) :
    next? covers cubes picked left ≠ none :=
  (run.of_reaches reaches).next?_ne_none some

/-- What is added at a turn is the next cube for what the earlier ones leave. -/
theorem isNext (run : Run covers cubes chosen (uncovered covers cubes chosen minterms) result)
    (later : chosen.length ≤ turn) (listed : result[turn]? = some position) :
    IsNext covers cubes (result.take turn) (uncovered covers cubes (result.take turn) minterms) position := by
  generalize start : uncovered covers cubes chosen minterms = remaining at run
  induction run with
  | done chosen =>
    obtain ⟨inside, _⟩ := List.getElem?_eq_some_iff.mp listed
    omega
  | @add chosen remaining result first next rest ih =>
    obtain ⟨others, rfl⟩ := rest.isPrefix
    rcases Nat.eq_or_lt_of_le later with rfl | later
    · -- This is the turn of the first cube that is added.
      rw [List.append_assoc, List.getElem?_append_right (Nat.le_refl _), Nat.sub_self] at listed
      obtain rfl : first = position := Option.some.inj listed
      rw [List.append_assoc, List.take_left, start]
      exact next
    · apply ih _ listed
      · rw [uncovered_append, start]
      · rw [List.length_append]
        exact later

/-- Nothing remains in the end. -/
theorem uncovered_eq_nil (run : Run covers cubes chosen (uncovered covers cubes chosen minterms) result) :
    uncovered covers cubes result minterms = [] := by
  generalize start : uncovered covers cubes chosen minterms = remaining at run
  induction run with
  | done => exact start
  | add _ _ ih =>
    apply ih
    rw [uncovered_append, start]

/-- Something remains at every turn but the last. -/
theorem uncovered_take_eq_nil_iff
    (run : Run covers cubes chosen (uncovered covers cubes chosen minterms) result)
    (later : chosen.length ≤ turn) :
    uncovered covers cubes (result.take turn) minterms = [] ↔ result.length ≤ turn := by
  constructor
  · intro empty
    by_contra early
    have listed := List.getElem?_eq_getElem (Nat.not_le.mp early)
    exact (run.isNext later listed).ne_nil empty
  · intro finished
    rw [List.take_of_length_le finished]
    exact run.uncovered_eq_nil

end Run

/-- If every chosen cube covers a minterm that no earlier one does, there are no more of them than
minterms. -/
theorem length_le_of_covers_new (new : ∀ turn position, chosen[turn]? = some position →
    ∃ c, cubes.get? position = some c ∧
      ∃ m ∈ uncovered covers cubes (chosen.take turn) minterms, covers c m = true) :
    chosen.length ≤ minterms.length := by
  have shrinks (turn : Nat) (inside : turn ≤ chosen.length) :
      turn + (uncovered covers cubes (chosen.take turn) minterms).length ≤ minterms.length := by
    induction turn with
    | zero =>
      rw [Nat.zero_add]
      exact List.length_filter_le _ _
    | succ turn ih =>
      have here : turn < chosen.length := inside
      obtain ⟨c, listed, m, member, covered⟩ := new turn _ (List.getElem?_eq_getElem here)
      have before := ih (Nat.le_of_lt here)
      have fewer : (uncovered covers cubes (chosen.take (turn + 1)) minterms).length <
          (uncovered covers cubes (chosen.take turn) minterms).length := by
        rw [List.take_succ_eq_append_getElem here, uncovered_append]
        exact length_uncovered_lt listed member covered
      omega
  have whole := shrinks chosen.length (Nat.le_refl _)
  omega

/-! ## The policy -/

section Select

variable {required : IndexSet}

/-- A list without repetition does not have the element of a position before it. -/
theorem not_mem_take {positions : List Nat} (distinct : positions.Nodup)
    (listed : positions[turn]? = some position) : position ∉ positions.take turn := by
  have first : (positions.drop turn)[0]? = some position := by
    rw [List.getElem?_drop, Nat.add_zero]
    exact listed
  intro earlier
  exact List.disjoint_take_drop distinct (Nat.le_refl _) earlier (List.mem_of_getElem? first)

/-- Every chosen cube covers a minterm of the chart that no earlier one covers: an essential cube covers
one that no other cube does. -/
theorem Run.exists_new_covered
    (run : Run covers cubes (Chart.buildBy covers cubes required).essentials
      (uncovered covers cubes (Chart.buildBy covers cubes required).essentials required.toList) result)
    (listed : result[turn]? = some position) : ∃ c, cubes.get? position = some c ∧
      ∃ m ∈ uncovered covers cubes (result.take turn) required.toList, covers c m = true := by
  have distinct := run.nodup (Chart.nodup_essentials _)
  by_cases early : turn < (Chart.buildBy covers cubes required).essentials.length
  · obtain ⟨added, whole⟩ := run.isPrefix
    have essential : (Chart.buildBy covers cubes required).essentials[turn]? = some position := by
      rw [← List.getElem?_append_left early, whole]
      exact listed
    obtain ⟨m, row, only⟩ := Chart.mem_essentials_buildBy.mp (List.mem_of_getElem? essential)
    obtain ⟨c, found, covered⟩ :=
      CubeList.mem_positions.mp (only ▸ List.mem_singleton_self position)
    refine ⟨c, found, m, mem_uncovered.mpr ⟨row, fun other earlier d present => ?_⟩, covered⟩
    -- Only this cube covers the minterm, and it is not among the earlier ones.
    rw [Bool.eq_false_iff]
    intro covered
    have same : other ∈ cubes.positions (covers · m) :=
      CubeList.mem_positions.mpr ⟨d, present, covered⟩
    obtain rfl := List.mem_singleton.mp (only ▸ same)
    exact not_mem_take distinct listed earlier
  · obtain ⟨_, c, found, positive, _⟩ := run.isNext (Nat.not_lt.mp early) listed
    obtain ⟨m, left, covered⟩ := List.countP_pos_iff.mp positive
    exact ⟨c, found, m, left, covered⟩

/-- If each minterm of a chart is covered by some cube, the selection keeps to the policy. -/
theorem greedy_select (coverable : ∀ m ∈ required, ∃ position c,
      cubes.get? position = some c ∧ covers c m = true) :
    Greedy covers cubes (Chart.buildBy covers cubes required).essentials required.toList
      (select covers cubes (Chart.buildBy covers cubes required)) := by
  have run : Run covers cubes (Chart.buildBy covers cubes required).essentials
      (uncovered covers cubes (Chart.buildBy covers cubes required).essentials required.toList)
      (select covers cubes (Chart.buildBy covers cubes required)) := by
    rw [← Chart.minterms_buildBy covers cubes required]
    refine run_select fun m row => coverable m ?_
    rwa [Chart.minterms_buildBy] at row
  exact {
    essentials_prefix := run.isPrefix
    isNext := fun _ _ later listed => missed_eq_uncovered _ _ ▸ run.isNext later listed
    ends := fun _ later => missed_eq_uncovered _ _ ▸ run.uncovered_take_eq_nil_iff later
    never_stuck := fun _ _ reaches left => run.next?_ne_none_of_reaches (missed_eq_uncovered _ _ ▸ reaches) left
    nodup := run.nodup (Chart.nodup_essentials _)
    covers_new := fun _ _ listed => missed_eq_uncovered _ _ ▸ run.exists_new_covered listed
    length_le := length_le_of_covers_new fun _ _ listed => run.exists_new_covered listed }

end Select

end Switching.Cover
