import Switching.Proofs.Pattern.Key

/-! # Rotated patterns

When the first positions of all patterns are put behind the others, the same patterns can be merged, and to
the rotated results (`merge?_rotate`). Which indices agree with a pattern is a matter of the bits at its
positions, in whatever order these are written (`agrees_iff_zip`). If the positions that are moved are
fixed, the weights of the free ones are multiplied (`freeWeights_rotate`).
-/

namespace Switching.Pattern

open Minterm

variable {p q m front rear : Pattern} {amount index : Nat}

/-! ## Merging -/

theorem Merged.concat (merged : Merged p q m) (x : Option Bool) :
    Merged (p ++ [x]) (q ++ [x]) (m ++ [x]) := by
  induction merged with
  | here value p => exact .here value (p ++ [x])
  | there y _ ih => exact .there y ih

theorem merged_concat (p : Pattern) (value : Bool) :
    Merged (p ++ [some value]) (p ++ [some (!value)]) (p ++ [none]) := by
  induction p with
  | nil => exact .here value []
  | cons x p ih => exact .there x ih

theorem Merged.rotate (merged : Merged p q m) (amount : Nat) :
    Merged (p.rotate amount) (q.rotate amount) (m.rotate amount) := by
  induction amount generalizing p q m with
  | zero => simpa only [List.rotate_zero] using merged
  | succ amount ih =>
    cases merged with
    | here value p =>
      simp only [List.rotate_cons_succ]
      exact ih (merged_concat p value)
    | there x merged =>
      simp only [List.rotate_cons_succ]
      exact ih (merged.concat x)

/-- A rotation is undone by going on to a number of full turns. -/
theorem rotate_back (p : Pattern) (amount : Nat) :
    (p.rotate amount).rotate (p.length * amount - amount) = p := by
  cases p with
  | nil => rw [List.rotate_nil, List.rotate_nil]
  | cons x p =>
    have less : amount ≤ (x :: p).length * amount := Nat.le_mul_of_pos_left _ (Nat.succ_pos _)
    rw [List.rotate_rotate, Nat.add_sub_cancel' less, List.rotate_length_mul]

theorem merge?_rotate (p q : Pattern) (amount : Nat) :
    merge? (p.rotate amount) (q.rotate amount) = (p.merge? q).map (·.rotate amount) := by
  refine Option.ext fun m => ?_
  rw [Option.map_eq_some_iff]
  constructor
  · intro success
    have merged := merge?_eq_some_iff.mp success
    have same : p.length = q.length := by
      have parts := merged.length_eq.trans merged.symm.length_eq.symm
      rwa [List.length_rotate, List.length_rotate] at parts
    have back := merged.rotate (p.length * amount - amount)
    rw [rotate_back, same, rotate_back] at back
    have again := merge?_eq_some_iff.mpr (back.rotate amount)
    exact ⟨_, merge?_eq_some_iff.mpr back, Option.some.inj (again.symm.trans success)⟩
  · rintro ⟨m, success, rfl⟩
    exact merge?_eq_some_iff.mpr ((merge?_eq_some_iff.mp success).rotate amount)

@[simp] theorem dashes_rotate (p : Pattern) (amount : Nat) : dashes (p.rotate amount) = p.dashes :=
  (List.rotate_perm p amount).count_eq none

@[simp] theorem ones_rotate (p : Pattern) (amount : Nat) : ones (p.rotate amount) = p.ones :=
  (List.rotate_perm p amount).count_eq (some true)

/-! ## Bits -/

/-- The bits of a list have the values that a pattern fixes. -/
def Fits (p : Pattern) (values : List Bool) : Prop :=
  ∀ entry ∈ p.zip values, ∀ value, entry.1 = some value → entry.2 = value

theorem fits_iff_getElem? {values : List Bool} (same : values.length = p.length) : p.Fits values ↔
    ∀ (position : Nat) (value : Bool), p[position]? = some (some value) →
      values[position]? = some value := by
  constructor
  · intro fits position value found
    have inside : position < values.length := same ▸ (List.getElem?_eq_some_iff.mp found).1
    have bit := List.getElem?_eq_getElem inside
    have entry : (some value, values[position]) ∈ p.zip values :=
      List.mem_of_getElem? (List.getElem?_zip_eq_some.mpr ⟨found, bit⟩)
    exact bit.trans (congrArg some (fits _ entry value rfl))
  · rintro each ⟨x, bit⟩ member value rfl
    obtain ⟨position, listed⟩ := List.mem_iff_getElem?.mp member
    obtain ⟨found, here⟩ := List.getElem?_zip_eq_some.mp listed
    exact Option.some.inj (here.symm.trans (each position value found))

theorem fits_rotate_iff {values : List Bool} (same : values.length = p.length) :
    Fits (p.rotate amount) (values.rotate amount) ↔ p.Fits values := by
  have zipped : (p.rotate amount).zip (values.rotate amount) = (p.zip values).rotate amount :=
    (List.zipWith_rotate_distrib Prod.mk p values amount same.symm).symm
  simp only [Fits, zipped, List.mem_rotate]

/-- An index agrees with a pattern when its bits have the fixed values. -/
theorem agrees_iff_fits : p.agrees index = true ↔ p.Fits (bits p.length index) := by
  rw [agrees_iff_getElem?, fits_iff_getElem? (length_bits ..)]
  refine forall₃_congr fun position value found => ?_
  have inside : position < (bits p.length index).length := by
    rw [length_bits]
    exact (List.getElem?_eq_some_iff.mp found).1
  rw [List.getElem?_eq_getElem inside, getElem_bits, Option.some.injEq]

/-! ## The weights of the free positions -/

/-- Fixed positions before the others do not change the weights. -/
theorem freeWeights_append_of_fixed_left (fixed : none ∉ front) :
    freeWeights (front ++ rear) = rear.freeWeights := by
  have none_front : front.idxsOf none = [] :=
    List.idxsOf_eq_nil_iff.mpr fun x member => beq_false_of_ne fun same => fixed (same ▸ member)
  rw [freeWeights, List.idxsOf_append, none_front, List.nil_append, List.idxsOf_start, List.map_map,
    freeWeights]
  refine congrArg List.reverse (List.map_congr_left fun position _ => congrArg (2 ^ ·) ?_)
  dsimp only
  rw [List.length_append]
  omega

/-- Fixed positions behind the others multiply the weights. -/
theorem freeWeights_append_of_fixed_right (fixed : none ∉ rear) :
    freeWeights (front ++ rear) = front.freeWeights.map (2 ^ rear.length * ·) := by
  have none_rear (start : Nat) : rear.idxsOf none start = [] :=
    List.idxsOf_eq_nil_iff.mpr fun x member => beq_false_of_ne fun same => fixed (same ▸ member)
  rw [freeWeights, List.idxsOf_append, none_rear, List.append_nil, freeWeights, List.map_reverse,
    List.map_map]
  refine congrArg List.reverse (List.map_congr_left fun position member => ?_)
  obtain ⟨inside, _⟩ := List.mem_idxsOf_iff_exists_getElem_pos.mp member
  rw [Function.comp_apply, ← Nat.pow_add, List.length_append]
  refine congrArg (2 ^ ·) ?_
  omega

theorem freeWeights_rotate (inside : amount ≤ p.length) (fixed : none ∉ p.take amount) :
    freeWeights (p.rotate amount) = p.freeWeights.map (2 ^ amount * ·) := by
  have whole : freeWeights (p.take amount ++ p.drop amount) = freeWeights (p.drop amount) :=
    freeWeights_append_of_fixed_left fixed
  rw [List.take_append_drop] at whole
  rw [List.rotate_eq_drop_append_take inside, freeWeights_append_of_fixed_right fixed, whole,
    List.length_take_of_le inside]

end Switching.Pattern
