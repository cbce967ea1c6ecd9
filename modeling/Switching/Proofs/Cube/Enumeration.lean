import Switching.Cube.Enumeration
import Switching.Proofs.Cube.Combination
import Switching.Proofs.Cube.Reading
import Switching.Proofs.Pattern.Key

/-! # Enumerating the indices of a cube

The covered indices are listed in increasing order, twice as many for each free position. They are the
indices that pass the test of `covers` (`covered_exact`), and they also arise from the smallest one when
the weights of the free positions are set one after the other (`expansion_perm`).
-/

namespace Switching

open Minterm

namespace Pattern

variable {p : Pattern} {first second : List Nat}

/-! ## Doubling -/

theorem foldl_doubledBy_perm (weights : List Nat) (same : first.Perm second) :
    (weights.foldl doubledBy first).Perm (weights.foldl doubledBy second) := by
  induction weights generalizing first second with
  | nil => exact same
  | cons weight weights ih => exact ih (same.append (same.map _))

/-- Two lists of indices can be doubled apart from each other. -/
theorem foldl_doubledBy_append (weights first second : List Nat) :
    (weights.foldl doubledBy (first ++ second)).Perm
      (weights.foldl doubledBy first ++ weights.foldl doubledBy second) := by
  induction weights generalizing first second with
  | nil => exact .refl _
  | cons weight weights ih =>
    have swapped : (doubledBy (first ++ second) weight).Perm
        (doubledBy first weight ++ doubledBy second weight) := by
      simp only [doubledBy, List.map_append, List.append_assoc]
      exact (List.perm_append_comm_assoc ..).append_left first
    exact (foldl_doubledBy_perm weights swapped).trans (ih _ _)

/-- A further position leaves the weights of the ones behind it as they are. -/
theorem map_idxsOf_one (p : Pattern) :
    ((p.idxsOf none 1).map fun position => 1 <<< (p.length - position)) = p.weights := by
  rw [List.idxsOf_start, List.map_map, weights]
  refine List.map_congr_left fun position _ => ?_
  rw [Function.comp_apply, Nat.add_comm, Nat.sub_sub]

theorem weights_some (value : Bool) (p : Pattern) : weights (some value :: p) = weights p := by
  rw [← map_idxsOf_one p, weights, List.idxsOf_cons, if_neg (by simp), List.length_cons,
    Nat.add_sub_cancel]

theorem weights_none (p : Pattern) : weights (none :: p) = 1 <<< p.length :: weights p := by
  rw [← map_idxsOf_one p, weights, List.idxsOf_cons, if_pos (by simp), List.length_cons,
    Nat.add_sub_cancel, List.map_cons, Nat.sub_zero]

/-- Setting the bit below a multiple. -/
theorem two_pow_or {width rest : Nat} (high : Nat) (small : rest < 2 ^ width) :
    2 ^ width ||| (2 ^ (width + 1) * high + rest) = 2 ^ width * (2 * high + 1) + rest := by
  have next : 2 ^ width < 2 ^ (width + 1) := Nat.pow_lt_pow_right (Nat.lt_succ_self 1) width.lt_succ_self
  calc 2 ^ width ||| (2 ^ (width + 1) * high + rest)
    _ = 2 ^ width ||| (2 ^ (width + 1) * high ||| rest) := by
        rw [Nat.two_pow_add_eq_or_of_lt (small.trans next)]
    _ = (2 ^ (width + 1) * high ||| 2 ^ width) ||| rest := by
        rw [← Nat.or_assoc, Nat.or_comm (2 ^ width)]
    _ = (2 ^ (width + 1) * high + 2 ^ width) ||| rest := by
        rw [Nat.two_pow_add_eq_or_of_lt next]
    _ = 2 ^ width * (2 * high + 1) ||| rest := by
        congr 1
        ring
    _ = 2 ^ width * (2 * high + 1) + rest := (Nat.two_pow_add_eq_or_of_lt small _).symm

/-- Doubling an index above the smallest one gives the covered indices, as far above. -/
theorem foldl_weights_perm (p : Pattern) (high : Nat) :
    (p.weights.foldl doubledBy [2 ^ p.length * high + Pattern.lowest p]).Perm
      ((coveredList p).map (2 ^ p.length * high + ·)) := by
  induction p generalizing high with
  | nil => simp [weights, lowest, coveredList]
  | cons x p ih =>
    have small : Pattern.lowest p < 2 ^ p.length := lt_of_mem_covered (lowest_mem_covered p)
    rw [lowest_cons, List.length_cons]
    cases x with
    | none =>
      -- The first weight splits the start in two, from each of which the others go on by themselves.
      have first : doubledBy [2 ^ (p.length + 1) * high + Pattern.lowest p] (2 ^ p.length) =
          [2 ^ p.length * (2 * high) + Pattern.lowest p] ++
            [2 ^ p.length * (2 * high + 1) + Pattern.lowest p] := by
        rw [doubledBy, List.map_singleton, two_pow_or high small, Nat.pow_succ, Nat.mul_assoc]
      rw [weights_none, List.foldl_cons, Nat.one_shiftLeft, Option.getD_none, Bool.toNat_false,
        Nat.mul_zero, Nat.zero_add, first, coveredList, doubled, List.map_append, List.map_map]
      refine (foldl_doubledBy_append ..).trans (((ih _).trans ?_).append ((ih _).trans ?_))
      · rw [Nat.pow_succ, Nat.mul_assoc]
      · refine .of_eq (List.map_congr_left fun index _ => ?_)
        rw [Function.comp_apply, Nat.one_shiftLeft]
        ring
    | some value =>
      have start : 2 ^ (p.length + 1) * high + (2 ^ p.length * value.toNat + Pattern.lowest p) =
          2 ^ p.length * (2 * high + value.toNat) + Pattern.lowest p := by ring
      rw [weights_some, Option.getD_some, start]
      refine (ih _).trans (.of_eq ?_)
      cases value with
      | false => simp [coveredList, Nat.pow_succ, Nat.mul_assoc]
      | true =>
        rw [coveredList, List.map_map]
        refine List.map_congr_left fun index _ => ?_
        rw [Function.comp_apply, Nat.one_shiftLeft, Bool.toNat_true]
        ring

/-! ## Enumeration -/

/-- The index with just the bits that are fixed to true is the smallest one. -/
theorem ofBits_eq_lowest (short : p.length ≤ wordSize) :
    ofBits (p.map (· == some true)) = p.lowest := by
  have same : p.map (· == some true) = p.map (·.getD false) := by
    refine List.map_congr_left fun x _ => ?_
    match x with
    | none => rfl
    | some false => rfl
    | some true => rfl
  rw [lowest_eq_value, same, ofBits_eq (by rwa [List.length_map])]

theorem expansion_perm (short : p.length ≤ wordSize) : p.expansion.Perm p.coveredList := by
  have raised := foldl_weights_perm p 0
  simp only [Nat.mul_zero, Nat.zero_add, List.map_id'] at raised
  rwa [expansion, ofBits_eq_lowest short]

/-- Sorting the indices that arise from doubling lists the covered ones. -/
theorem mergeSort_expansion (short : p.length ≤ wordSize) :
    p.expansion.mergeSort = p.coveredList := by
  have ordered : p.coveredList.Pairwise (· ≤ ·) := (sorted_coveredList p).imp Nat.le_of_lt
  have same : p.expansion.mergeSort.Perm p.coveredList :=
    (List.mergeSort_perm ..).trans (expansion_perm short)
  exact same.eq_of_pairwise' (List.pairwise_mergeSort' (· ≤ ·) p.expansion) ordered

theorem length_coveredList (p : Pattern) : p.coveredList.length = 2 ^ p.dashes := by
  induction p with
  | nil => rfl
  | cons x p ih =>
    match x with
    | some false => simpa [coveredList, dashes] using ih
    | some true => simpa [coveredList, dashes] using ih
    | none =>
      rw [coveredList, doubled, List.length_append, List.length_map]
      change _ = 2 ^ (List.count none (none :: p))
      rw [List.count_cons_self, Nat.pow_succ, Nat.mul_two]
      exact congrArg₂ _ ih ih

/-- Each position is free or fixed to one of the two values. -/
theorem dashes_add (p : Pattern) :
    p.dashes + (p.count (some true) + p.count (some false)) = p.length := by
  induction p with
  | nil => rfl
  | cons x p ih =>
    rw [dashes] at ih ⊢
    rcases x with _ | value
    · simp
      omega
    · cases value <;> simp <;> omega

theorem mem_positions {value : Bool} {position : Nat} :
    position ∈ p.positions value ↔ p[position]? = some (some value) := by
  simp only [positions, List.mem_toFinset, List.mem_idxsOf_iff_exists_getElem_pos, beq_iff_eq,
    List.getElem?_eq_some_iff]

theorem card_positions (p : Pattern) (value : Bool) :
    (p.positions value).card = p.count (some value) := by
  have distinct : (p.idxsOf (some value)).Nodup := List.pairwise_idxsOf.imp Nat.ne_of_lt
  rw [positions, List.toFinset_card_of_nodup distinct, List.length_idxsOf]

theorem positions_subset (p : Pattern) (value : Bool) : p.positions value ⊆ Finset.range p.length := by
  intro position member
  exact Finset.mem_range.mpr (List.getElem?_eq_some_iff.mp (mem_positions.mp member)).1

/-- No position is fixed to both values. -/
theorem disjoint_positions (p : Pattern) : Disjoint (p.positions true) (p.positions false) := by
  refine Finset.disjoint_left.mpr fun position left right => ?_
  have same := (mem_positions.mp left).symm.trans (mem_positions.mp right)
  simp at same

end Pattern

namespace Cube

open Pattern

variable {c : Cube} {fixed : Bool → Finset Nat}

theorem positions_ofMinterm (index width : Nat) (value : Bool) :
    (ofMinterm index width).pattern.positions value =
      (Finset.range width).filter (bitAt index width · = value) := by
  ext position
  rw [mem_positions, Finset.mem_filter, Finset.mem_range, ofMinterm, List.getElem?_map]
  by_cases inside : position < width
  · rw [List.getElem?_eq_getElem (by rwa [length_bits]), getElem_bits]
    simp [inside]
  · rw [List.getElem?_eq_none (by rwa [length_bits, ← Nat.not_lt])]
    simp [inside]

theorem positions_merged {a b c : Cube} (success : a.combine? b = some c) (value : Bool) :
    c.pattern.positions value = a.pattern.positions value ∩ b.pattern.positions value := by
  ext position
  rw [Finset.mem_inter, mem_positions, mem_positions, mem_positions]
  exact (combine?_eq_some_iff.mp success).1.getElem?_eq_fixed_iff

theorem positions_ofString {text : String} {word : List Char}
    (stripped : word = text.toList.filter (!isGap ·)) (read : ofString text = .ok c) (value : Bool) :
    c.pattern.positions value =
      (Finset.range word.length).filter (word[·]? = some (Text.bit value)) := by
  obtain ⟨p, spelled, _, rfl⟩ := ofString_eq_ok_iff.mp read
  rw [stripped, spelled]
  ext position
  rw [mem_positions, Finset.mem_filter, Finset.mem_range, symbols, List.length_map, List.getElem?_map,
    Option.map_eq_some_iff]
  constructor
  · intro found
    exact ⟨(List.getElem?_eq_some_iff.mp found).1, _, found, rfl⟩
  · rintro ⟨_, x, found, same⟩
    have fixed : x = some value := symbol_injective same
    rwa [fixed] at found

/-- Whichever way a cube is put together, the positions fixed to a value are those of its pattern. -/
theorem Built.eq_positions (built : c.Built fixed) (value : Bool) :
    fixed value = c.pattern.positions value := by
  induction built with
  | ofMinterm index width => exact (positions_ofMinterm index width value).symm
  | ofString stripped read => exact (positions_ofString stripped read value).symm
  | combine _ _ success first second => rw [positions_merged success, ← first, ← second]

/-- The covered indices are listed in strictly increasing order, twice as many for each free position.
They are the machine words that the cube covers, and setting the weights of the free positions one after
the other in the index with the bits that are fixed to true gives the same ones. The positions that were
fixed to true and to false while the cube was put together are disjoint and inside of its width, so that
the rest of the positions, which are the free ones, can be counted by subtraction. -/
theorem covered_exact (c : Cube) (short : c.width ≤ wordSize) :
    let covered := c.pattern.covered.toList
    covered.Pairwise (· < ·) ∧
    covered.length = 2 ^ c.pattern.dashes ∧
    (∀ index < 2 ^ wordSize, index ∈ covered ↔ c.covers index = true) ∧
    covered = c.pattern.expansion.mergeSort ∧
    ∀ fixed, c.Built fixed →
      Disjoint (fixed true) (fixed false) ∧
      (∀ value, fixed value ⊆ Finset.range c.width) ∧
      (fixed true).card + (fixed false).card ≤ c.width ∧
      c.pattern.dashes = c.width - (fixed true).card - (fixed false).card := by
  refine ⟨c.pattern.covered.sorted, length_coveredList _,
    fun index word => (covers_iff_of_word word).symm, (mergeSort_expansion short).symm,
    fun fixed built => ?_⟩
  have total : c.pattern.dashes + ((c.pattern.positions true).card + (c.pattern.positions false).card) =
      c.width := by
    rw [card_positions, card_positions]
    exact dashes_add c.pattern
  rw [built.eq_positions, built.eq_positions]
  refine ⟨disjoint_positions _, fun value => ?_, ?_, ?_⟩
  · exact built.eq_positions value ▸ positions_subset _ value
  · exact total ▸ Nat.le_add_left ..
  · rw [← total, Nat.sub_sub, Nat.add_sub_cancel]

theorem covered_exact_merged :
    let c : Cube := ⟨[none, some true, some false], .ofList [2, 6]⟩
    c.width ≤ wordSize ∧ (∃ fixed, c.Built fixed) ∧
    (let covered := c.pattern.covered.toList
    covered.Pairwise (· < ·) ∧
    covered.length = 2 ^ c.pattern.dashes ∧
    (∀ index < 2 ^ wordSize, index ∈ covered ↔ c.covers index = true) ∧
    covered = c.pattern.expansion.mergeSort ∧
    ∀ fixed, c.Built fixed →
      Disjoint (fixed true) (fixed false) ∧
      (∀ value, fixed value ⊆ Finset.range c.width) ∧
      (fixed true).card + (fixed false).card ≤ c.width ∧
      c.pattern.dashes = c.width - (fixed true).card - (fixed false).card) := by
  intro c
  have short : c.width ≤ wordSize := by decide
  have merged : (ofMinterm 2 3).combine? (ofMinterm 6 3) = some c := by decide
  exact ⟨short, ⟨_, .combine (.ofMinterm 2 3) (.ofMinterm 6 3) merged⟩, covered_exact c short⟩

end Cube

end Switching
