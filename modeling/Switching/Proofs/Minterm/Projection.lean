import Switching.IndexSet
import Switching.Proofs.Minterm.Bits
import Switching.Proofs.Variables.Selection

/-! # Indices over fewer variables

When only some variables are kept, `project` drops the bits of the others from an index, and `embed`
goes back: it sets the dropped bits to 0. Every index is the projection of equally many indices
(`countP_project`), the smallest of which is its embedding (`embed_le`). A set of indices is lifted to
the set of all indices with a projection in it.
-/

namespace Switching.Minterm

variable {kept : List Bool} {few others : IndexSet} {index wide rest : Nat}

/-- The index that the kept bits spell. -/
def project (kept : List Bool) (index : Nat) : Nat :=
  value (pick kept (bits kept.length index))

/-- The index over all variables with the bits of an index over the kept ones, and no others set. -/
def embed (kept : List Bool) (index : Nat) : Nat :=
  value (spread false kept (bits (kept.count true) index))

theorem length_pick_bits (kept : List Bool) (index : Nat) :
    (pick kept (bits kept.length index)).length = kept.count true :=
  length_pick (length_bits ..)

theorem project_lt (kept : List Bool) (index : Nat) : project kept index < 2 ^ kept.count true := by
  have small := value_lt (pick kept (bits kept.length index))
  rwa [length_pick_bits] at small

theorem embed_lt (kept : List Bool) (index : Nat) : embed kept index < 2 ^ kept.length := by
  have small := value_lt (spread false kept (bits (kept.count true) index))
  rwa [length_spread] at small

theorem project_embed (inside : index < 2 ^ kept.count true) :
    project kept (embed kept index) = index := by
  have spelled : bits kept.length (embed kept index) =
      spread false kept (bits (kept.count true) index) := by
    have whole := bits_value (spread false kept (bits (kept.count true) index))
    rwa [length_spread] at whole
  rw [project, spelled, pick_spread (length_bits ..), value_bits, Nat.mod_eq_of_lt inside]

/-- The highest bit is dropped. -/
theorem project_false (bit : Bool) (small : rest < 2 ^ kept.length) :
    project (false :: kept) (2 ^ kept.length * bit.toNat + rest) = project kept rest := by
  rw [project, List.length_cons, bits_cons bit small]
  rfl

/-- The highest bit is kept. -/
theorem project_true (bit : Bool) (small : rest < 2 ^ kept.length) :
    project (true :: kept) (2 ^ kept.length * bit.toNat + rest) =
      2 ^ kept.count true * bit.toNat + project kept rest := by
  rw [project, List.length_cons, bits_cons bit small, pick, value, length_pick_bits]
  rfl

/-- Among the lists of bits from which the same ones are kept, none spells a smaller number than the
one in which all others are 0. -/
theorem value_spread_le {few all : List Bool} (fits : few.length = kept.count true)
    (same : all.length = kept.length) (reached : value few ≤ value (pick kept all)) :
    value (spread false kept few) ≤ value all := by
  induction kept generalizing few all with
  | nil => simp [spread, value]
  | cons keep kept ih =>
    obtain ⟨bit, all, rfl⟩ := List.exists_cons_of_length_eq_add_one same
    have rest : all.length = kept.length := Nat.succ.inj same
    cases keep with
    | false =>
      have tail := ih (by simpa using fits) rest reached
      simp only [spread, value, Bool.toNat_false]
      omega
    | true =>
      obtain ⟨first, few, rfl⟩ := List.exists_cons_of_length_eq_add_one (by simpa using fits)
      have fewer : few.length = kept.count true := by simpa using fits
      have lengths : (pick kept all).length = few.length := (length_pick rest).trans fewer.symm
      have smallFew := value_lt few
      have smallPick := value_lt (pick kept all)
      have smallSpread := value_lt (spread false kept few)
      rw [lengths] at smallPick
      simp only [spread, pick, value, lengths, length_spread, rest] at reached smallSpread ⊢
      -- The first bits that are kept either decide the comparison or are equal.
      cases first <;> cases bit
      all_goals simp only [Bool.toNat_true, Bool.toNat_false] at reached ⊢
      · have := ih fewer rest (by omega)
        omega
      · omega
      · omega
      · have := ih fewer rest (by omega)
        omega

theorem embed_le (inside : index < 2 ^ kept.count true) (small : wide < 2 ^ kept.length)
    (reached : index ≤ project kept wide) : embed kept index ≤ wide := by
  have bound : value (bits (kept.count true) index) ≤ value (pick kept (bits kept.length wide)) := by
    rwa [value_bits, Nat.mod_eq_of_lt inside]
  have least := value_spread_le (length_bits ..) (length_bits ..) bound
  rwa [value_bits, Nat.mod_eq_of_lt small] at least

/-! ## Counting -/

/-- The indices over one more variable are counted by its value. -/
theorem countP_range_double (width : Nat) (test : Nat → Bool) :
    (List.range (2 ^ (width + 1))).countP test =
      (List.range (2 ^ width)).countP (fun rest => test (2 ^ width * false.toNat + rest)) +
      (List.range (2 ^ width)).countP (fun rest => test (2 ^ width * true.toNat + rest)) := by
  rw [Nat.pow_succ, Nat.mul_two, List.range_add, List.countP_append, List.countP_map]
  simp only [Bool.toNat_false, Bool.toNat_true, Nat.mul_zero, Nat.mul_one, Nat.zero_add,
    Function.comp_def]

/-- As many indices have a projection as there are choices for the bits that are dropped. -/
theorem countP_project (kept : List Bool) (test : Nat → Bool) :
    (List.range (2 ^ kept.length)).countP (fun index => test (project kept index)) =
      2 ^ kept.count false * (List.range (2 ^ kept.count true)).countP test := by
  induction kept generalizing test with
  | nil => simp [project, pick, value]
  | cons keep kept ih =>
    rw [List.length_cons, countP_range_double]
    cases keep with
    | false =>
      have dropped (bit : Bool) : (List.range (2 ^ kept.length)).countP (fun rest =>
            test (project (false :: kept) (2 ^ kept.length * bit.toNat + rest))) =
          2 ^ kept.count false * (List.range (2 ^ kept.count true)).countP test := by
        rw [← ih test]
        refine List.countP_congr fun rest member => ?_
        rw [project_false bit (List.mem_range.mp member)]
      rw [dropped false, dropped true, List.count_cons_self, List.count_cons_of_ne (by decide),
        Nat.pow_succ]
      ring
    | true =>
      have halved (bit : Bool) : (List.range (2 ^ kept.length)).countP (fun rest =>
            test (project (true :: kept) (2 ^ kept.length * bit.toNat + rest))) =
          2 ^ kept.count false * (List.range (2 ^ kept.count true)).countP
            (fun rest => test (2 ^ kept.count true * bit.toNat + rest)) := by
        rw [← ih fun rest => test (2 ^ kept.count true * bit.toNat + rest)]
        refine List.countP_congr fun rest member => ?_
        rw [project_true bit (List.mem_range.mp member)]
      rw [halved false, halved true, List.count_cons_self, List.count_cons_of_ne (by decide),
        countP_range_double, Nat.mul_add]

/-! ## Sets of indices -/

/-- The indices over all variables whose projections are in a set. -/
def lift (kept : List Bool) (few : IndexSet) : IndexSet :=
  (IndexSet.range (2 ^ kept.length)).filter (project kept · ∈ few)

theorem mem_lift : index ∈ lift kept few ↔ index < 2 ^ kept.length ∧ project kept index ∈ few := by
  rw [lift, IndexSet.mem_filter, IndexSet.mem_range, decide_eq_true_iff]

theorem embed_mem_lift (inside : index < 2 ^ kept.count true) :
    embed kept index ∈ lift kept few ↔ index ∈ few := by
  rw [mem_lift, project_embed inside]
  exact and_iff_right (embed_lt kept index)

theorem lift_subset_lift (inside : ∀ index ∈ few, index < 2 ^ kept.count true) :
    lift kept few ⊆ lift kept others ↔ few ⊆ others := by
  constructor
  · intro subset index member
    have small := inside index member
    exact (embed_mem_lift small).mp (subset _ ((embed_mem_lift small).mpr member))
  · intro subset index member
    obtain ⟨small, member⟩ := mem_lift.mp member
    exact mem_lift.mpr ⟨small, subset _ member⟩

theorem countP_lift (inside : ∀ index ∈ few, index < 2 ^ kept.count true) (test : Nat → Bool) :
    (lift kept few).toList.countP (fun index => test (project kept index)) =
      2 ^ kept.count false * few.toList.countP test := by
  have part : few = (IndexSet.range (2 ^ kept.count true)).filter (· ∈ few) := by
    ext index
    rw [IndexSet.mem_filter, IndexSet.mem_range, decide_eq_true_iff]
    exact ⟨fun member => ⟨inside index member, member⟩, And.right⟩
  calc
    (lift kept few).toList.countP (fun index => test (project kept index))
      = (List.range (2 ^ kept.length)).countP
          (fun index => test (project kept index) && decide (project kept index ∈ few)) :=
        List.countP_filter
    _ = 2 ^ kept.count false *
          (List.range (2 ^ kept.count true)).countP (fun index => test index && decide (index ∈ few)) :=
        countP_project kept fun index => test index && decide (index ∈ few)
    _ = 2 ^ kept.count false *
          ((IndexSet.range (2 ^ kept.count true)).filter (· ∈ few)).toList.countP test :=
        congrArg _ List.countP_filter.symm
    _ = 2 ^ kept.count false * few.toList.countP test := by rw [← part]

end Switching.Minterm
