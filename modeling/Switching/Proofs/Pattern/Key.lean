import Switching.Cube.Key
import Switching.Proofs.Minterm.Bits
import Switching.Proofs.PrimeSearch.Order

/-! # The key of a pattern

The key of a pattern counts its free positions and its positions fixed to true, and then tells it apart
from the others with as many of both: by the smallest index that it covers, and by the weights of its
free positions. Patterns precede each other in the order of their keys (`Precedes.key_lt`).

Two patterns with the same smallest index cover the same indices up to the smallest weight that is free
in only one of them. Adding this weight to the smallest index gives the first difference
(`leads_of_weight`).
-/

namespace Switching

namespace Pattern

variable {p q : Pattern} {index bit : Nat}

/-! ## The smallest index -/

theorem isLeast_lowest (p : Pattern) : IsLeast {index | index ∈ p.covered} p.lowest := by
  obtain ⟨index, member⟩ := exists_mem_covered p
  obtain ⟨first, rest, listed⟩ := List.exists_cons_of_ne_nil (List.ne_nil_of_mem member)
  have sorted := sorted_coveredList p
  change p.coveredList = first :: rest at listed
  rw [listed, List.pairwise_cons] at sorted
  have least : p.lowest = first := by rw [lowest, listed, List.headD_cons]
  rw [least]
  constructor
  · change first ∈ p.coveredList
    rw [listed]
    exact List.mem_cons_self
  · intro other covered
    change other ∈ p.coveredList at covered
    rw [listed] at covered
    rcases List.mem_cons.mp covered with rfl | later
    · exact Nat.le_refl _
    · exact Nat.le_of_lt (sorted.1 other later)

theorem lowest_mem_covered (p : Pattern) : p.lowest ∈ p.covered :=
  (isLeast_lowest p).1

theorem lowest_le (member : index ∈ p.covered) : p.lowest ≤ index :=
  (isLeast_lowest p).2 member

theorem lowest_cons (x : Option Bool) (p : Pattern) :
    lowest (x :: p) = 2 ^ p.length * (x.getD false).toNat + p.lowest := by
  obtain ⟨index, member⟩ := exists_mem_covered p
  obtain ⟨first, rest, listed⟩ := List.exists_cons_of_ne_nil (List.ne_nil_of_mem member)
  change coveredList p = first :: rest at listed
  match x with
  | some false => simp [lowest, coveredList]
  | some true => simp [lowest, coveredList, listed, Nat.one_shiftLeft]
  | none => simp [lowest, coveredList, doubled, listed]

/-- In the smallest index, all free positions are false. -/
theorem lowest_eq_value (p : Pattern) : p.lowest = Minterm.value (p.map (·.getD false)) := by
  induction p with
  | nil => rfl
  | cons x p ih => rw [lowest_cons, ih, List.map_cons, Minterm.value, List.length_map]

/-! ## The weights of the free positions -/

theorem mem_freeWeights : 2 ^ bit ∈ p.freeWeights ↔
    bit < p.length ∧ p[p.length - 1 - bit]? = some none := by
  simp only [freeWeights, List.mem_reverse, List.mem_map, List.mem_idxsOf_iff_exists_getElem_pos,
    beq_iff_eq]
  constructor
  · rintro ⟨position, ⟨inside, free⟩, same⟩
    have same := Nat.pow_right_injective (Nat.le_refl 2) same
    have place : p.length - 1 - bit = position := by omega
    rw [place, List.getElem?_eq_getElem inside, free]
    exact ⟨by omega, rfl⟩
  · rintro ⟨inside, free⟩
    obtain ⟨within, free⟩ := List.getElem?_eq_some_iff.mp free
    refine ⟨p.length - 1 - bit, ⟨within, free⟩, congrArg _ ?_⟩
    omega

theorem exists_eq_of_mem_freeWeights {weight : Nat} (member : weight ∈ p.freeWeights) :
    ∃ bit, weight = 2 ^ bit := by
  obtain ⟨position, _, rfl⟩ := List.mem_map.mp (List.mem_reverse.mp member)
  exact ⟨_, rfl⟩

theorem sorted_freeWeights (p : Pattern) : p.freeWeights.Pairwise (· < ·) := by
  rw [freeWeights, List.pairwise_reverse, List.pairwise_map]
  refine List.pairwise_idxsOf.imp_of_mem fun {first second} _ member less => ?_
  obtain ⟨inside, _⟩ := List.mem_idxsOf_iff_exists_getElem_pos.mp member
  apply Nat.pow_lt_pow_right (Nat.lt_succ_self 1)
  omega

@[simp] theorem length_freeWeights (p : Pattern) : p.freeWeights.length = p.dashes := by
  rw [freeWeights, List.length_reverse, List.length_map, List.length_idxsOf, dashes]

/-- The smallest index has no weight of a free position. -/
theorem testBit_lowest (free : 2 ^ bit ∈ p.freeWeights) : p.lowest.testBit bit = false := by
  obtain ⟨inside, found⟩ := mem_freeWeights.mp free
  have listed : (p.map (·.getD false))[p.length - 1 - bit]? = some false := by
    rw [List.getElem?_map, found]
    rfl
  have value := Minterm.bitAt_value listed
  rw [← lowest_eq_value, List.length_map, Minterm.bitAt] at value
  have place : p.length - 1 - (p.length - 1 - bit) = bit := by omega
  rwa [place] at value

/-- The bits of an index stand at the positions, counted from the last one. -/
theorem agrees_iff_testBit : p.agrees index = true ↔ ∀ bit < p.length, ∀ value,
    p[p.length - 1 - bit]? = some (some value) → index.testBit bit = value := by
  have back {bit : Nat} (inside : bit < p.length) : p.length - 1 - (p.length - 1 - bit) = bit := by
    omega
  rw [agrees_iff_getElem?]
  constructor
  · intro agrees bit inside value found
    have listed := agrees _ _ found
    rwa [Minterm.bitAt, back inside] at listed
  · intro agrees position value found
    have within := (List.getElem?_eq_some_iff.mp found).1
    have inside : p.length - 1 - position < p.length := by omega
    apply agrees _ inside
    rwa [back within]

/-- A covered index differs from the smallest one in free positions only. -/
theorem mem_covered_iff_testBit : index ∈ p.covered ↔ index < 2 ^ p.length ∧
    ∀ bit < p.length, 2 ^ bit ∉ p.freeWeights → index.testBit bit = p.lowest.testBit bit := by
  have lowest := agrees_iff_testBit.mp (mem_covered.mp (lowest_mem_covered p)).2
  rw [mem_covered, agrees_iff_testBit]
  refine and_congr_right fun _ => forall₂_congr fun bit inside => ?_
  have within : p.length - 1 - bit < p.length := by omega
  have least := lowest bit inside
  rw [mem_freeWeights, List.getElem?_eq_getElem within]
  rw [List.getElem?_eq_getElem within] at least
  cases found : p[p.length - 1 - bit] with
  | none => simp [inside]
  | some value => simp [least value (congrArg some found)]

/-! ## The first difference -/

theorem or_two_pow_le {number high : Nat} (below : bit ≤ high) (unset : number.testBit high = false) :
    number ||| 2 ^ bit ≤ number ||| 2 ^ high := by
  rcases Nat.eq_or_lt_of_le below with rfl | less
  · exact Nat.le_refl _
  · apply Nat.le_of_lt
    apply Nat.lt_of_testBit high
    · rw [Nat.testBit_or, unset, Nat.testBit_two_pow_of_ne (Nat.ne_of_lt less), Bool.or_false]
    · rw [Nat.testBit_or, Nat.testBit_two_pow_self, Bool.or_true]
    · intro other above
      rw [Nat.testBit_or, Nat.testBit_or, Nat.testBit_two_pow_of_ne (Nat.ne_of_lt above),
        Nat.testBit_two_pow_of_ne (Nat.ne_of_lt (less.trans above))]

/-- A covered index has all bits of the smallest one. -/
theorem testBit_of_testBit_lowest (member : index ∈ p.covered) (set : p.lowest.testBit bit = true) :
    index.testBit bit = true := by
  have inside : bit < p.length := by
    by_contra wide
    have bounded := (lt_of_mem_covered (lowest_mem_covered p)).trans_le
      (Nat.pow_le_pow_right Nat.two_pos (Nat.not_lt.mp wide))
    rw [Nat.testBit_lt_two_pow bounded] at set
    cases set
  have taken : 2 ^ bit ∉ p.freeWeights := by
    intro free
    rw [testBit_lowest free] at set
    cases set
  rw [(mem_covered_iff_testBit.mp member).2 bit inside taken]
  exact set

/-- An index that is covered besides the smallest one has a weight to add to it. -/
theorem or_le_of_testBit_ne {high : Nat} (member : index ∈ p.covered) (inside : high < p.length)
    (differs : index.testBit high ≠ p.lowest.testBit high) (below : bit ≤ high) :
    p.lowest ||| 2 ^ bit ≤ index := by
  have free : 2 ^ high ∈ p.freeWeights := by
    by_contra taken
    exact differs ((mem_covered_iff_testBit.mp member).2 high inside taken)
  have unset := testBit_lowest free
  have set : index.testBit high = true := by
    rw [unset] at differs
    exact Bool.eq_true_of_not_eq_false differs
  calc p.lowest ||| 2 ^ bit ≤ p.lowest ||| 2 ^ high := or_two_pow_le below unset
    _ ≤ index := by
        apply Nat.le_of_testBit
        intro other found
        rw [Nat.testBit_or, Nat.testBit_two_pow, Bool.or_eq_true, decide_eq_true_eq] at found
        rcases found with found | rfl
        · exact testBit_of_testBit_lowest member found
        · exact set

/-- As far as two patterns have the same free weights, what one covers the other does. -/
theorem mem_covered_of_lt (same : p.length = q.length) (equal : p.lowest = q.lowest)
    (agree : ∀ lower < bit, 2 ^ lower ∈ p.freeWeights ↔ 2 ^ lower ∈ q.freeWeights)
    (less : index < p.lowest ||| 2 ^ bit) (member : index ∈ p.covered) : index ∈ q.covered := by
  obtain ⟨small, others⟩ := mem_covered_iff_testBit.mp member
  refine mem_covered_iff_testBit.mpr ⟨same ▸ small, fun high inside taken => ?_⟩
  rw [← same] at inside
  rw [← equal]
  by_contra differs
  by_cases below : high < bit
  · exact differs (others high inside fun free => taken ((agree high below).mp free))
  · exact absurd (or_le_of_testBit_ne member inside differs (Nat.not_lt.mp below)) (Nat.not_le.mpr less)

/-- The weight of a free position can be added to the smallest index. -/
theorem lowest_or_mem_covered (free : 2 ^ bit ∈ p.freeWeights) : p.lowest ||| 2 ^ bit ∈ p.covered := by
  have inside := (mem_freeWeights.mp free).1
  refine mem_covered_iff_testBit.mpr ⟨?_, fun other _ fixed => ?_⟩
  · apply Nat.or_lt_two_pow
    · exact lt_of_mem_covered (lowest_mem_covered p)
    · exact Nat.pow_lt_pow_right (Nat.lt_succ_self 1) inside
  · have different : bit ≠ other := by
      rintro rfl
      exact fixed free
    rw [Nat.testBit_or, Nat.testBit_two_pow_of_ne different, Bool.or_false]

/-- Of two patterns with the same smallest index, the one with the first weight that is free in only one
of them leads. -/
theorem leads_of_weight (same : p.length = q.length) (equal : p.lowest = q.lowest)
    (free : 2 ^ bit ∈ p.freeWeights) (taken : 2 ^ bit ∉ q.freeWeights)
    (agree : ∀ lower < bit, 2 ^ lower ∈ p.freeWeights ↔ 2 ^ lower ∈ q.freeWeights) : p.Leads q := by
  obtain ⟨inside, _⟩ := mem_freeWeights.mp free
  have unset := testBit_lowest free
  refine ⟨p.lowest ||| 2 ^ bit, lowest_or_mem_covered free, ?_,
    fun index less => ⟨fun member => ?_, fun member => ?_⟩⟩
  · intro member
    have missing := (mem_covered_iff_testBit.mp member).2 bit (same ▸ inside) taken
    rw [Nat.testBit_or, Nat.testBit_two_pow_self, Bool.or_true, ← equal, unset] at missing
    cases missing
  · exact mem_covered_of_lt same equal agree less member
  · exact mem_covered_of_lt same.symm equal.symm (fun lower below => (agree lower below).symm)
      (equal ▸ less) member

/-- The first element in which increasing lists of one length differ belongs to the lesser one. -/
theorem exists_first_difference {first second : List Nat} (left : first.Pairwise (· < ·))
    (right : second.Pairwise (· < ·)) (same : first.length = second.length) (less : first < second) :
    ∃ a ∈ first, a ∉ second ∧ ∀ b < a, b ∈ first ↔ b ∈ second := by
  induction first generalizing second with
  | nil =>
    obtain rfl := List.eq_nil_of_length_eq_zero same.symm
    exact absurd less (lt_irrefl _)
  | cons a first ih =>
    obtain ⟨b, second, rfl⟩ := List.exists_cons_of_length_eq_add_one same.symm
    obtain ⟨above, sorted⟩ := List.pairwise_cons.mp left
    obtain ⟨beyond, ordered⟩ := List.pairwise_cons.mp right
    have apart {c d : Nat} {l : List Nat} (large : ∀ e ∈ l, d < e) (small : c < d) : c ∉ d :: l := by
      intro member
      rcases List.mem_cons.mp member with rfl | member
      · exact Nat.lt_irrefl _ small
      · exact Nat.lt_asymm small (large c member)
    rcases List.cons_lt_cons_iff.mp less with smaller | ⟨rfl, lesser⟩
    · refine ⟨a, List.mem_cons_self, apart beyond smaller, fun c below => ?_⟩
      exact iff_of_false (apart above below) (apart beyond (below.trans smaller))
    · obtain ⟨c, member, missing, agree⟩ := ih sorted ordered (Nat.succ.inj same) lesser
      have later := above c member
      refine ⟨c, List.mem_cons_of_mem _ member, ?_, fun d below => ?_⟩
      · rw [List.mem_cons, not_or]
        exact ⟨Nat.ne_of_gt later, missing⟩
      · rw [List.mem_cons, List.mem_cons, agree d below]

theorem leads_of_freeWeights_lt (same : p.length = q.length) (dashes : p.dashes = q.dashes)
    (equal : p.lowest = q.lowest) (less : p.freeWeights < q.freeWeights) : p.Leads q := by
  obtain ⟨weight, member, missing, agree⟩ := exists_first_difference (sorted_freeWeights p)
    (sorted_freeWeights q) (by simpa using dashes) less
  obtain ⟨bit, rfl⟩ := exists_eq_of_mem_freeWeights member
  refine leads_of_weight same equal member missing fun lower below => agree _ ?_
  exact Nat.pow_lt_pow_right (Nat.lt_succ_self 1) below

/-! ## Comparing keys -/

/-- If the first difference is in the first of two patterns, its smallest index is smaller, or else its
free weights are. -/
theorem Leads.lowest_lt_or (leads : p.Leads q) (same : p.length = q.length)
    (dashes : p.dashes = q.dashes) :
    p.lowest < q.lowest ∨ p.lowest = q.lowest ∧ p.freeWeights < q.freeWeights := by
  obtain ⟨index, inside, outside, below⟩ := id leads
  rcases Nat.lt_trichotomy p.lowest q.lowest with less | equal | more
  · exact .inl less
  · refine .inr ⟨equal, ?_⟩
    rcases lt_trichotomy p.freeWeights q.freeWeights with less | weights | more
    · exact less
    · refine absurd (mem_covered_iff_testBit.mpr ?_) outside
      rw [← same, ← equal, ← weights]
      exact mem_covered_iff_testBit.mp inside
    · exact absurd (leads_of_freeWeights_lt same.symm dashes.symm equal.symm more) leads.asymm
  · have early : q.lowest < index := more.trans_le (lowest_le inside)
    have covered := (below _ early).mpr (lowest_mem_covered q)
    exact absurd (lowest_le covered) (Nat.not_le.mpr more)

/-- The order of the primes is that of their keys. -/
theorem Precedes.key_lt (precedes : p.Precedes q) (same : p.length = q.length) : p.key < q.key := by
  simp only [key, Prod.Lex.toLex_lt_toLex]
  rcases precedes with fewer | ⟨dashes, fewer | ⟨ones, leads⟩⟩
  · exact .inl fewer
  · exact .inr ⟨dashes, .inl fewer⟩
  · exact .inr ⟨dashes, .inr ⟨ones, leads.lowest_lt_or same dashes⟩⟩

end Pattern

end Switching
