import Switching.Proofs.PrimeSearch

/-! # The order in which primes are found

Primes with fewer free positions are found first, then those with fewer positions fixed to true. Among
primes with as many of both, the smallest index that only one of two covers decides (`Precedes`). The
list of primes is sorted in this way (`sorted_primes`), so that its order depends on its members only.

Inside a group the order is kept from round to round: a cube is merged from two halves, all indices of
the first half are below those of the second, and cubes are compared by their halves.
-/

namespace Switching

namespace Pattern

/-- The smallest index that only one of two patterns covers is covered by the first. -/
def Leads (p q : Pattern) : Prop :=
  ∃ index ∈ p.covered, index ∉ q.covered ∧
    ∀ lower < index, lower ∈ p.covered ↔ lower ∈ q.covered

/-- The order of the primes: by the number of free positions, by the number of positions fixed to
true, and by the first index that makes a difference. -/
def Precedes (p q : Pattern) : Prop :=
  p.dashes < q.dashes ∨ p.dashes = q.dashes ∧ (p.ones < q.ones ∨ p.ones = q.ones ∧ p.Leads q)

variable {p q m n : Pattern} {index : Nat}

theorem Leads.asymm (leads : p.Leads q) : ¬ q.Leads p := by
  rintro ⟨j, inQ, notInP, below⟩
  obtain ⟨i, inP, notInQ, above⟩ := leads
  rcases Nat.lt_trichotomy i j with less | rfl | more
  · exact notInQ ((below i less).mpr inP)
  · exact notInQ inQ
  · exact notInP ((above j more).mpr inQ)

theorem Precedes.asymm (precedes : p.Precedes q) : ¬ q.Precedes p := by
  rintro (fewer | ⟨dashes, fewer | ⟨ones, leads⟩⟩)
  all_goals rcases precedes with less | ⟨_, less | ⟨_, first⟩⟩
  all_goals first
    | omega
    | exact first.asymm leads

theorem not_precedes_self (p : Pattern) : ¬ p.Precedes p := fun precedes =>
  precedes.asymm precedes

/-! ## Comparing the halves of a pattern -/

theorem dashes_le_of_subset (same : p.length = q.length) (below : p.covered ⊆ q.covered) :
    p.dashes ≤ q.dashes := by
  induction p generalizing q with
  | nil => exact Nat.zero_le _
  | cons x p ih =>
    obtain ⟨y, q, rfl⟩ := List.exists_cons_of_length_eq_add_one same.symm
    have tail : p.length = q.length := Nat.succ.inj same
    obtain ⟨first, below⟩ := (covered_cons_subset tail).mp below
    have rest := ih tail below
    simp only [dashes, List.count_cons] at rest ⊢
    rcases first with rfl | rfl
    · simp only [BEq.rfl, ↓reduceIte]
      split <;> omega
    · omega

/-- A pattern cannot cover less than another one with as many free positions. -/
theorem subset_of_dashes_le (same : p.length = q.length) (below : p.covered ⊆ q.covered)
    (free : q.dashes ≤ p.dashes) : q.covered ⊆ p.covered := by
  by_contra strict
  obtain ⟨r, m, merged, inside⟩ := exists_neighbour same below strict
  have length := merged.length_eq.symm.trans same
  have larger : m.covered ⊆ q.covered := fun index member =>
    (merged.mem_covered_iff.mp member).elim (below index) (inside index)
  have := dashes_le_of_subset length larger
  have := merged.dashes_eq
  omega

/-- If the first difference is in the first of two patterns, the second covers something beyond it. -/
theorem exists_above (same : p.length = q.length) (free : p.dashes = q.dashes)
    (inside : index ∈ p.covered) (outside : index ∉ q.covered)
    (below : ∀ lower < index, lower ∈ p.covered ↔ lower ∈ q.covered) :
    ∃ other ∈ q.covered, index < other := by
  by_contra none
  push Not at none
  have part : q.covered ⊆ p.covered := fun other member =>
    have less : other < index := (none other member).lt_of_ne fun equal => outside (equal ▸ member)
    (below other less).mpr member
  exact outside (subset_of_dashes_le same.symm part (Nat.le_of_eq free) index inside)

theorem mem_covered_halves (free : 0 < m.dashes) : index ∈ m.covered ↔
    index ∈ (m.fixLeading false).covered ∨ index ∈ (m.fixLeading true).covered :=
  (merged_of_mergeLeading? (mergeLeading?_fixLeading free)).mem_covered_iff

@[simp] theorem length_fixLeading (value : Bool) (m : Pattern) :
    (m.fixLeading value).length = m.length := by
  fun_induction fixLeading value m with
  | case1 => rfl
  | case2 m => rfl
  | case3 x m ih => rw [List.length_cons, List.length_cons, ih]

/-- All indices of the first half are below those of the second. -/
theorem lt_of_mem_halves (free : 0 < m.dashes) {i j : Nat} (low : i ∈ (m.fixLeading false).covered)
    (high : j ∈ (m.fixLeading true).covered) : i < j := by
  induction m generalizing i j with
  | nil => simp [dashes] at free
  | cons x m ih =>
    cases x with
    | none =>
      obtain ⟨a, i, smallI, rfl⟩ := exists_highest_bit (lt_of_mem_covered low)
      obtain ⟨b, j, smallJ, rfl⟩ := exists_highest_bit (lt_of_mem_covered high)
      obtain ⟨first, low⟩ := (mem_covered_cons smallI).mp low
      obtain ⟨second, high⟩ := (mem_covered_cons smallJ).mp high
      obtain rfl : a = false := by simpa using first.symm
      obtain rfl : b = true := by simpa using second.symm
      simp only [Bool.toNat_false, Bool.toNat_true]
      omega
    | some x =>
      obtain ⟨a, i, smallI, rfl⟩ := exists_highest_bit (lt_of_mem_covered low)
      obtain ⟨b, j, smallJ, rfl⟩ := exists_highest_bit (lt_of_mem_covered high)
      obtain ⟨first, lower⟩ := (mem_covered_cons smallI).mp low
      obtain ⟨second, upper⟩ := (mem_covered_cons smallJ).mp high
      obtain rfl : x = a := by simpa using first
      obtain rfl : x = b := by simpa using second
      have less := ih (by simpa [dashes] using free) lower upper
      simp only [length_fixLeading]
      omega

/-- Patterns with the same first half are compared by the second. -/
theorem leads_of_high (freeM : 0 < m.dashes) (freeN : 0 < n.dashes)
    (same : m.fixLeading false = n.fixLeading false)
    (leads : (m.fixLeading true).Leads (n.fixLeading true)) : m.Leads n := by
  obtain ⟨index, inside, outside, below⟩ := leads
  refine ⟨index, (mem_covered_halves freeM).mpr (.inr inside), ?_, fun lower less => ?_⟩
  · rw [mem_covered_halves freeN, ← same]
    rintro (low | high)
    · exact Nat.lt_irrefl index (lt_of_mem_halves freeM low inside)
    · exact outside high
  · rw [mem_covered_halves freeM, mem_covered_halves freeN, same, below lower less]

/-- The first halves decide if they are different. -/
theorem leads_of_low (freeM : 0 < m.dashes) (freeN : 0 < n.dashes) (same : m.length = n.length)
    (equal : (m.fixLeading false).dashes = (n.fixLeading false).dashes)
    (leads : (m.fixLeading false).Leads (n.fixLeading false)) : m.Leads n := by
  obtain ⟨index, inside, outside, below⟩ := leads
  obtain ⟨other, covered, above⟩ := exists_above (by simp [same]) equal inside outside below
  refine ⟨index, (mem_covered_halves freeM).mpr (.inl inside), ?_, fun lower less => ?_⟩
  · rw [mem_covered_halves freeN]
    rintro (low | high)
    · exact outside low
    · exact Nat.lt_asymm above (lt_of_mem_halves freeN covered high)
  · rw [mem_covered_halves freeM, mem_covered_halves freeN, below lower less]
    refine or_congr_right (iff_of_false (fun high => ?_) fun high => ?_)
    · exact Nat.lt_asymm less (lt_of_mem_halves freeM inside high)
    · exact Nat.lt_asymm (less.trans above) (lt_of_mem_halves freeN covered high)

end Pattern

namespace PrimeSearch

open Pattern

variable {terms : IndexSet} {width free bound : Nat} {groups : Groups} {c : Cube}

/-- In every group, cubes are listed by the first index that makes a difference. -/
def Sorted (groups : Groups) : Prop :=
  ∀ ones, (groups.getD ones []).Pairwise fun c d => c.pattern.Leads d.pattern

theorem leads_of_lt {i j : Nat} (inside : j < 2 ^ width) (less : i < j) :
    (Cube.ofMinterm i width).pattern.Leads (Cube.ofMinterm j width).pattern := by
  have first : i % 2 ^ width = i := Nat.mod_eq_of_lt (less.trans inside)
  have second : j % 2 ^ width = j := Nat.mod_eq_of_lt inside
  refine ⟨i, mem_covered_bits.mpr first.symm, ?_, fun lower below => ?_⟩
  · rw [Cube.ofMinterm, mem_covered_bits, second]
    exact Nat.ne_of_lt less
  · rw [Cube.ofMinterm, Cube.ofMinterm, mem_covered_bits, mem_covered_bits, first, second]
    omega

theorem sorted_start (inside : ∀ t ∈ terms, t < 2 ^ width) : Sorted (start terms width) := by
  intro ones
  rw [getD_start]
  split
  · refine List.Pairwise.filter _ (List.pairwise_map.mpr ?_)
    exact terms.sorted.imp_of_mem fun _ second less => leads_of_lt (inside _ second) less
  · exact .nil

/-- Merging keeps the order of the groups. -/
theorem sorted_advance (round : Round terms width free groups) (sorted : Sorted groups) :
    Sorted (advance groups) := by
  intro ones
  have member {a b c : Cube} (low : a ∈ groups.getD ones []) (high : b ∈ groups.getD (ones + 1) [])
      (success : a.combineLeading? b = some c) : c.pattern.length = width ∧ 0 < c.pattern.dashes := by
    have listed : c ∈ (advance groups).getD ones [] := by
      rw [getD_advance]
      exact mem_mergeGroups.mpr ⟨a, low, b, high, success⟩
    obtain ⟨p, isMember, rfl⟩ := (round.advance.mem_iff ones c).mp listed
    refine ⟨isMember.length_eq, ?_⟩
    change 0 < p.dashes
    rw [isMember.dashes_eq]
    exact Nat.succ_pos free
  rw [getD_advance, mergeGroups, List.pairwise_flatMap]
  constructor
  · intro a low
    rw [List.pairwise_filterMap]
    refine (sorted (ones + 1)).imp_of_mem fun {b other} high highOther leads c first d second => ?_
    obtain ⟨left, right⟩ := round.eq_fixLeading low high first
    obtain ⟨leftOther, rightOther⟩ := round.eq_fixLeading low highOther second
    rw [right, rightOther] at leads
    have same := congrArg Cube.pattern (left.symm.trans leftOther)
    exact leads_of_high (member low high first).2 (member low highOther second).2 same leads
  · refine (sorted ones).imp_of_mem fun {a other} low lowOther leads c first d second => ?_
    obtain ⟨b, high, success⟩ := List.mem_filterMap.mp first
    obtain ⟨e, highOther, successOther⟩ := List.mem_filterMap.mp second
    have equal : a.pattern.dashes = other.pattern.dashes := by
      obtain ⟨p, left, rfl⟩ := (round.mem_iff ones a).mp low
      obtain ⟨q, right, rfl⟩ := (round.mem_iff ones other).mp lowOther
      exact left.dashes_eq.trans right.dashes_eq.symm
    obtain ⟨length, some⟩ := member low high success
    obtain ⟨lengthOther, someOther⟩ := member lowOther highOther successOther
    obtain ⟨left, _⟩ := round.eq_fixLeading low high success
    obtain ⟨leftOther, _⟩ := round.eq_fixLeading lowOther highOther successOther
    rw [left, leftOther] at leads equal
    exact leads_of_low some someOther (length.trans lengthOther.symm) equal leads

/-! ## The whole list -/

/-- What a round leaves unmerged is listed in order. The groups are those from some number of ones
on. -/
theorem pairwise_unmerged {below : List Cube} {first : Nat}
    (members : ∀ ones, ∀ c ∈ groups.getD ones [],
      c.pattern.dashes = free ∧ c.pattern.ones = first + ones)
    (sorted : Sorted groups) :
    (unmerged below groups).Pairwise fun c d => c.pattern.Precedes d.pattern := by
  induction groups generalizing below first with
  | nil => exact .nil
  | cons group rest ih =>
    have head := members 0
    have tail (ones : Nat) : ∀ c ∈ rest.getD ones [],
        c.pattern.dashes = free ∧ c.pattern.ones = first + 1 + ones := by
      intro c member
      have later := members (ones + 1) c (by simpa using member)
      exact ⟨later.1, by omega⟩
    rw [unmerged, List.pairwise_append]
    refine ⟨?_, ih tail fun ones => by simpa using sorted (ones + 1), ?_⟩
    · refine List.Pairwise.filter _ ((sorted 0).imp_of_mem fun {c d} left right leads => ?_)
      have first := head c left
      have second := head d right
      exact .inr ⟨first.1.trans second.1.symm, .inr ⟨first.2.trans second.2.symm, leads⟩⟩
    · intro c left d right
      have first := head c (List.mem_filter.mp left).1
      obtain ⟨ones, listed, _⟩ := mem_unmerged.mp right
      have second := tail ones d listed
      exact .inr ⟨first.1.trans second.1.symm, .inl (by omega)⟩

/-- All rounds together list their primes in order. -/
theorem Round.pairwise_flatMap_rounds (round : Round terms width free groups) (bound : Nat)
    (sorted : Sorted groups) :
    ((rounds bound groups).flatMap (unmerged [])).Pairwise
      fun c d => c.pattern.Precedes d.pattern := by
  induction bound generalizing free groups with
  | zero => exact .nil
  | succ bound ih =>
    rw [flatMap_rounds_succ, List.pairwise_append]
    have members (ones : Nat) : ∀ c ∈ groups.getD ones [],
        c.pattern.dashes = free ∧ c.pattern.ones = 0 + ones := by
      intro c member
      obtain ⟨p, isMember, rfl⟩ := (round.mem_iff ones c).mp member
      exact ⟨isMember.dashes_eq, isMember.ones_eq.trans (Nat.zero_add ones).symm⟩
    refine ⟨pairwise_unmerged members sorted, ih round.advance (sorted_advance round sorted),
      fun c left d right => .inl ?_⟩
    · obtain ⟨p, _, here, _, rfl⟩ := round.mem_unmerged_iff.mp left
      obtain ⟨q, _, later, _, _, rfl⟩ := round.advance.mem_flatMap_rounds.mp right
      change p.dashes < q.dashes
      omega

end PrimeSearch

/-- Distinct cubes are listed as they come. -/
theorem CubeList.toList_extend {list : CubeList} {cubes : List Cube}
    (distinct : (list.toList ++ cubes).Nodup) : (list.extend cubes).toList = list.toList ++ cubes := by
  induction cubes generalizing list with
  | nil => simp [extend]
  | cons c cubes ih =>
    have fresh : c ∉ list := fun listed =>
      (List.nodup_append.mp distinct).2.2 c listed c (List.mem_cons_self ..) rfl
    have pushed : (list.push c).toList = list.toList ++ [c] := by rw [toList_push, if_neg fresh]
    have distinct : ((list.push c).toList ++ cubes).Nodup := by
      rwa [pushed, List.append_assoc, List.singleton_append]
    rw [extend, List.foldl_cons, ← extend, ih distinct, pushed, List.append_assoc,
      List.singleton_append]

theorem CubeList.toList_ofList {cubes : List Cube} (distinct : cubes.Nodup) :
    (ofList cubes).toList = cubes := by
  have listed : ((∅ : CubeList).extend cubes).toList = (∅ : CubeList).toList ++ cubes :=
    toList_extend distinct
  exact listed

/-- The order of a list that is sorted by an asymmetric relation depends on its members only. -/
theorem eq_of_pairwise {α : Type} {before : α → α → Prop} {first second : List α}
    (asymm : ∀ a b, before a b → ¬ before b a) (left : first.Pairwise before)
    (right : second.Pairwise before) (same : ∀ a, a ∈ first ↔ a ∈ second) : first = second := by
  have distinct {l : List α} (sorted : l.Pairwise before) : l.Nodup := by
    apply sorted.imp
    rintro a _ less rfl
    exact asymm a a less less
  have perm := (List.perm_ext_iff_of_nodup (distinct left) (distinct right)).mpr same
  exact perm.eq_of_pairwise (fun a b _ _ less more => absurd more (asymm a b less)) left right

/-- In a list that is sorted by an asymmetric relation, the relation tells which of two positions is the
earlier one. -/
theorem lt_iff_of_pairwise {α : Type} {before : α → α → Prop} {l : List α} {a b : α} {i j : Nat}
    (asymm : ∀ a b, before a b → ¬ before b a) (sorted : l.Pairwise before) (first : l[i]? = some a)
    (second : l[j]? = some b) : i < j ↔ before a b := by
  obtain ⟨insideFirst, rfl⟩ := List.getElem?_eq_some_iff.mp first
  obtain ⟨insideSecond, rfl⟩ := List.getElem?_eq_some_iff.mp second
  have ordered := List.pairwise_iff_getElem.mp sorted
  refine ⟨ordered i j insideFirst insideSecond, fun less => ?_⟩
  rcases Nat.lt_trichotomy i j with early | rfl | late
  · exact early
  · exact absurd less (asymm _ _ less)
  · exact absurd less (asymm _ _ (ordered j i insideSecond insideFirst late))

section Sorted

variable {cubes others : List Cube}

theorem nodup_of_precedes (sorted : cubes.Pairwise fun c d => c.pattern.Precedes d.pattern) :
    cubes.Nodup := by
  refine sorted.imp fun {c d} precedes => ?_
  rintro rfl
  exact Pattern.not_precedes_self _ precedes

/-- The order of sorted cubes depends on which they are only. -/
theorem eq_of_precedes (left : cubes.Pairwise fun c d => c.pattern.Precedes d.pattern)
    (right : others.Pairwise fun c d => c.pattern.Precedes d.pattern)
    (same : ∀ c, c ∈ cubes ↔ c ∈ others) : cubes = others :=
  eq_of_pairwise (fun _ _ => Pattern.Precedes.asymm) left right same

end Sorted

/-- The primes are listed in order. -/
theorem PrimeSearch.sorted_primes {terms : IndexSet} {width : Nat}
    (inside : ∀ t ∈ terms, t < 2 ^ width) :
    (primes terms width).toList.Pairwise fun c d => c.pattern.Precedes d.pattern := by
  have ordered := (round_start inside).pairwise_flatMap_rounds (width + 1) (sorted_start inside)
  rwa [primes, CubeList.toList_ofList (nodup_of_precedes ordered)]

end Switching
