import Switching.PrimeSearch
import Switching.Proofs.Pattern.Merging

/-! # The rounds of the search for primes

In the round for `free` free positions, the group at position `ones` holds exactly the patterns
within the terms that have so many free positions and so many positions fixed to true, each once and
with all covered indices as its origins (`Round`). The first round has this property, building the
next round keeps it, and the cubes that a round leaves unmerged are its isolated ones. Hence the search
finds the isolated patterns and nothing else (`mem_primes_iff_isolated`). Within a machine word these
are the prime ones (`mem_primes`).
-/

namespace Switching

open Pattern

namespace PrimeSearch

variable {terms : IndexSet} {width free bound : Nat} {groups : Groups} {c : Cube}

/-- What a group of a round holds: the patterns within the terms, by the number of positions of each
kind. -/
structure IsMember (terms : IndexSet) (width free ones : Nat) (p : Pattern) : Prop where
  length_eq : p.length = width
  dashes_eq : p.dashes = free
  ones_eq : p.ones = ones
  inside : p.covered ⊆ terms

/-- Every group of a round holds each of its members once and nothing else. -/
structure Round (terms : IndexSet) (width free : Nat) (groups : Groups) : Prop where
  nodup (ones : Nat) : (groups.getD ones []).Nodup
  mem_iff (ones : Nat) (c : Cube) :
    c ∈ groups.getD ones [] ↔ ∃ p, IsMember terms width free ones p ∧ c = .ofPattern p

/-! ## The first round -/

/-- Over enough bits, an index is the only one that the pattern of its bits covers. -/
theorem mem_covered_bits {width index other : Nat} :
    other ∈ Pattern.covered ((Minterm.bits width index).map some) ↔ other = index % 2 ^ width := by
  induction width generalizing other with
  | zero =>
    change other ∈ [0] ↔ _
    simp [Nat.mod_one]
  | succ width ih =>
    have length : ((Minterm.bits width index).map some).length = width := by simp
    have split : index % 2 ^ (width + 1) =
        2 ^ width * (index.testBit width).toNat + index % 2 ^ width := by
      rw [Nat.mod_pow_succ, Nat.add_comm, Nat.toNat_testBit]
    constructor
    · intro member
      obtain ⟨bit, rest, below, rfl⟩ := exists_highest_bit (lt_of_mem_covered member)
      obtain ⟨allowed, others⟩ := (mem_covered_cons below).mp member
      obtain rfl : index.testBit width = bit := by simpa using allowed
      rw [length, split, ih.mp others]
    · intro same
      rw [same, split]
      have lower := ih.mpr (Eq.refl (index % 2 ^ width))
      have image := (mem_covered_cons (lt_of_mem_covered lower)).mpr
        ⟨.inr (Eq.refl (some (index.testBit width))), lower⟩
      rwa [length] at image

theorem ofMinterm_eq_ofPattern {index width : Nat} (inside : index < 2 ^ width) :
    Cube.ofMinterm index width = .ofPattern ((Minterm.bits width index).map some) := by
  rw [Cube.ofMinterm, Cube.ofPattern, Cube.mk.injEq]
  refine ⟨rfl, IndexSet.ext fun other => ?_⟩
  rw [mem_covered_bits, IndexSet.mem_singleton, Nat.mod_eq_of_lt inside]

/-- A pattern without free positions spells the index that it covers. -/
theorem eq_bits_of_dashes {p : Pattern} {index : Nat} (fixed : p.dashes = 0)
    (member : p.agrees index = true) : p = (Minterm.bits p.length index).map some := by
  induction p with
  | nil => rfl
  | cons x p ih =>
    match x with
    | none => simp [dashes] at fixed
    | some value =>
      simp only [agrees, Bool.and_eq_true, beq_iff_eq] at member
      have tail := ih (by simpa [dashes] using fixed) member.2
      simp only [List.length_cons, Minterm.bits, List.map_cons, member.1]
      rw [← tail]

theorem dashes_bits (width index : Nat) : dashes ((Minterm.bits width index).map some) = 0 := by
  simp [dashes, List.count_eq_zero]

theorem nodup_map_ofMinterm (terms : IndexSet) (width : Nat) :
    (terms.toList.map (Cube.ofMinterm · width)).Nodup := by
  refine (IndexSet.nodup_toList terms).map fun first second same => ?_
  have member : first ∈ (Cube.ofMinterm second width).origins :=
    same ▸ IndexSet.mem_singleton.mpr rfl
  exact IndexSet.mem_singleton.mp member

theorem getD_start (terms : IndexSet) (width ones : Nat) :
    (start terms width).getD ones [] =
      if ones < width + 1 then
        (terms.toList.map (Cube.ofMinterm · width)).filter (·.pattern.ones == ones)
      else [] := by
  by_cases small : ones < width + 1 <;> simp [start, small]

theorem round_start (inside : ∀ t ∈ terms, t < 2 ^ width) :
    Round terms width 0 (start terms width) := by
  refine ⟨fun ones => ?_, fun ones c => ?_⟩
  · rw [getD_start]
    split
    · exact (nodup_map_ofMinterm terms width).filter _
    · exact .nil
  rw [getD_start]
  constructor
  · intro member
    split at member
    · obtain ⟨listed, count⟩ := List.mem_filter.mp member
      obtain ⟨t, term, rfl⟩ := List.mem_map.mp listed
      have small := inside t term
      refine ⟨_, ⟨by simp, dashes_bits width t, beq_iff_eq.mp count, fun other covered => ?_⟩,
        ofMinterm_eq_ofPattern small⟩
      rw [mem_covered_bits.mp covered, Nat.mod_eq_of_lt small]
      exact term
    · exact absurd member List.not_mem_nil
  · rintro ⟨p, member, rfl⟩
    obtain ⟨t, covered⟩ := exists_mem_covered p
    have spelled := eq_bits_of_dashes member.dashes_eq (mem_covered.mp covered).2
    rw [member.length_eq] at spelled
    have bounded : ones < width + 1 := by
      rw [← member.ones_eq, ← member.length_eq]
      exact Nat.lt_succ_of_le List.count_le_length
    rw [if_pos bounded]
    refine List.mem_filter.mpr ⟨List.mem_map.mpr ⟨t, member.inside t covered, ?_⟩,
      beq_iff_eq.mpr member.ones_eq⟩
    rw [ofMinterm_eq_ofPattern (inside t (member.inside t covered)), ← spelled]

/-! ## The next round -/

theorem getD_advance (groups : Groups) (ones : Nat) :
    (advance groups).getD ones [] =
      mergeGroups (groups.getD ones []) (groups.getD (ones + 1) []) := by
  fun_induction advance groups generalizing ones with
  | case1 low high rest ih =>
    cases ones with
    | zero => rfl
    | succ ones => simpa using ih ones
  | case2 groups short =>
    have last : groups.getD (ones + 1) [] = [] := by
      rcases groups with _ | ⟨low, _ | ⟨high, rest⟩⟩
      · rfl
      · rfl
      · exact absurd rfl (short low high rest)
    rw [last]
    simp [mergeGroups]

theorem mem_mergeGroups {low high : List Cube} :
    c ∈ mergeGroups low high ↔ ∃ a ∈ low, ∃ b ∈ high, a.combineLeading? b = some c := by
  simp [mergeGroups]

theorem combineLeading?_ofPattern (p q : Pattern) :
    (Cube.ofPattern p).combineLeading? (.ofPattern q) = (p.mergeLeading? q).map .ofPattern := by
  refine Option.map_congr fun m success => ?_
  exact congrArg (Cube.mk m) (merged_of_mergeLeading? success).covered_eq.symm

theorem combine?_ofPattern (p q : Pattern) :
    (Cube.ofPattern p).combine? (.ofPattern q) = (p.merge? q).map .ofPattern := by
  refine Option.map_congr fun m success => ?_
  exact congrArg (Cube.mk m) (merge?_eq_some_iff.mp success).covered_eq.symm

theorem combine?_of_combineLeading? {a b : Cube} (success : a.combineLeading? b = some c) :
    a.combine? b = some c := by
  obtain ⟨m, leading, rfl⟩ := Option.map_eq_some_iff.mp success
  have merged := merge?_eq_some_iff.mpr (merged_of_mergeLeading? leading)
  exact Option.map_eq_some_iff.mpr ⟨m, merged, rfl⟩

/-- Two members of neighbouring groups merge into a member of the next round. -/
theorem IsMember.merged {ones : Nat} {p q m : Pattern} (left : IsMember terms width free ones p)
    (right : IsMember terms width free (ones + 1) q) (merged : Merged p q m) :
    IsMember terms width (free + 1) ones m := by
  refine ⟨merged.length_eq.symm.trans left.length_eq, ?_, ?_, fun index member => ?_⟩
  · rw [merged.dashes_eq, left.dashes_eq]
  · have counts := merged.ones_eq
    rw [left.ones_eq, right.ones_eq] at counts
    omega
  · exact (merged.mem_covered_iff.mp member).elim (left.inside index) (right.inside index)

/-- A member of the next round arises from its two halves. -/
theorem IsMember.fixLeading {ones : Nat} {m : Pattern} (value : Bool)
    (member : IsMember terms width (free + 1) ones m) :
    IsMember terms width free (ones + value.toNat) (m.fixLeading value) := by
  have some : 0 < m.dashes := by
    rw [member.dashes_eq]
    exact Nat.succ_pos free
  have merged := merged_of_mergeLeading? (mergeLeading?_fixLeading some)
  have count : (m.fixLeading value).ones = ones + value.toNat := by
    rw [ones_fixLeading value some, member.ones_eq]
  cases value with
  | false =>
    exact ⟨merged.length_eq.trans member.length_eq,
      Nat.succ.inj (merged.dashes_eq.symm.trans member.dashes_eq), count,
      fun index covered => member.inside index (merged.mem_covered_iff.mpr (.inl covered))⟩
  | true =>
    exact ⟨merged.symm.length_eq.trans member.length_eq,
      Nat.succ.inj (merged.symm.dashes_eq.symm.trans member.dashes_eq), count,
      fun index covered => member.inside index (merged.mem_covered_iff.mpr (.inr covered))⟩

/-- A cube of the next round tells the pair that it is merged from. -/
theorem Round.eq_fixLeading (round : Round terms width free groups) {ones : Nat} {a b : Cube}
    (low : a ∈ groups.getD ones []) (high : b ∈ groups.getD (ones + 1) [])
    (success : a.combineLeading? b = some c) :
    a = .ofPattern (c.pattern.fixLeading false) ∧ b = .ofPattern (c.pattern.fixLeading true) := by
  obtain ⟨p, left, rfl⟩ := (round.mem_iff ones a).mp low
  obtain ⟨q, right, rfl⟩ := (round.mem_iff (ones + 1) b).mp high
  rw [combineLeading?_ofPattern, Option.map_eq_some_iff] at success
  obtain ⟨m, success, rfl⟩ := success
  have less : p.ones < q.ones := by
    rw [left.ones_eq, right.ones_eq]
    exact Nat.lt_succ_self ones
  obtain ⟨lower, upper⟩ := Pattern.eq_fixLeading success less
  exact ⟨congrArg _ lower, congrArg _ upper⟩

theorem Round.nodup_mergeGroups (round : Round terms width free groups) (ones : Nat) :
    (mergeGroups (groups.getD ones []) (groups.getD (ones + 1) [])).Nodup := by
  rw [mergeGroups, List.nodup_flatMap]
  constructor
  · intro a low
    rw [List.Nodup, List.pairwise_filterMap]
    refine (round.nodup (ones + 1)).imp_of_mem fun {b other} high highOther different => ?_
    rintro c first _ second rfl
    exact different ((round.eq_fixLeading low high first).2.trans
      (round.eq_fixLeading low highOther second).2.symm)
  · refine (round.nodup ones).imp_of_mem fun {a other} low lowOther different => ?_
    intro c first second
    obtain ⟨b, high, success⟩ := List.mem_filterMap.mp first
    obtain ⟨d, highOther, successOther⟩ := List.mem_filterMap.mp second
    exact different ((round.eq_fixLeading low high success).1.trans
      (round.eq_fixLeading lowOther highOther successOther).1.symm)

/-- Merging the cubes of neighbouring groups gives the members of the next round. -/
theorem Round.advance (round : Round terms width free groups) :
    Round terms width (free + 1) (advance groups) := by
  refine ⟨fun ones => ?_, fun ones c => ?_⟩
  · rw [getD_advance]
    exact round.nodup_mergeGroups ones
  rw [getD_advance, mem_mergeGroups]
  constructor
  · rintro ⟨a, low, b, high, success⟩
    obtain ⟨p, left, rfl⟩ := (round.mem_iff ones a).mp low
    obtain ⟨q, right, rfl⟩ := (round.mem_iff (ones + 1) b).mp high
    rw [combineLeading?_ofPattern, Option.map_eq_some_iff] at success
    obtain ⟨m, success, rfl⟩ := success
    exact ⟨m, left.merged right (merged_of_mergeLeading? success), rfl⟩
  · rintro ⟨m, member, rfl⟩
    have left := (round.mem_iff ones _).mpr ⟨_, member.fixLeading false, rfl⟩
    have right := (round.mem_iff (ones + 1) _).mpr ⟨_, member.fixLeading true, rfl⟩
    refine ⟨_, left, _, right, ?_⟩
    rw [combineLeading?_ofPattern, mergeLeading?_fixLeading, Option.map_some]
    rw [member.dashes_eq]
    exact Nat.succ_pos free

/-! ## The cubes that are left -/

theorem mem_unmerged {below : List Cube} :
    c ∈ unmerged below groups ↔ ∃ ones, c ∈ groups.getD ones [] ∧
      (∀ b ∈ (below :: groups).getD ones [], b.merges c = false) ∧
      ∀ b ∈ groups.getD (ones + 1) [], c.merges b = false := by
  induction groups generalizing below with
  | nil => simp [unmerged]
  | cons group rest ih =>
    have head : rest.headD [] = rest.getD 0 [] := by cases rest <;> rfl
    rw [unmerged, List.mem_append, ih, List.mem_filter, head]
    simp only [Bool.and_eq_true, Bool.not_eq_true', List.any_eq_false, Bool.not_eq_true]
    constructor
    · rintro (⟨member, lower, upper⟩ | ⟨ones, found⟩)
      · exact ⟨0, by simpa using member, by simpa using lower, by simpa using upper⟩
      · exact ⟨ones + 1, by simpa using found⟩
    · rintro ⟨ones, member, lower, upper⟩
      cases ones with
      | zero => exact .inl ⟨by simpa using member, by simpa using lower, by simpa using upper⟩
      | succ ones =>
        exact .inr ⟨ones, by simpa using member, by simpa using lower, by simpa using upper⟩

theorem merges_ofPattern_eq_false {p q : Pattern} :
    (Cube.ofPattern p).merges (.ofPattern q) = false ↔ ∀ m, ¬ Merged p q m := by
  change (p.merge? q).isSome = false ↔ _
  rw [Option.isSome_eq_false_iff, Option.isNone_iff_eq_none, Option.eq_none_iff_forall_ne_some]
  exact forall_congr' fun m => not_congr merge?_eq_some_iff

/-- A round leaves exactly its isolated patterns unmerged. -/
theorem Round.mem_unmerged_iff (round : Round terms width free groups) :
    c ∈ unmerged [] groups ↔
      ∃ p : Pattern, p.length = width ∧ p.dashes = free ∧ p.Isolated terms ∧ c = .ofPattern p := by
  rw [mem_unmerged]
  constructor
  · rintro ⟨ones, listed, lower, upper⟩
    obtain ⟨p, member, rfl⟩ := (round.mem_iff ones c).mp listed
    refine ⟨p, member.length_eq, member.dashes_eq, ⟨member.inside, fun q m merged inside => ?_⟩, rfl⟩
    have neighbour (count : Nat) (ones_eq : q.ones = count) : IsMember terms width free count q :=
      ⟨merged.symm.length_eq.trans (merged.length_eq.symm.trans member.length_eq),
        Nat.succ.inj (merged.symm.dashes_eq.symm.trans
          (merged.dashes_eq.trans (congrArg (· + 1) member.dashes_eq))), ones_eq, inside⟩
    have counts := merged.ones_eq
    rw [member.ones_eq] at counts
    rcases counts with ⟨low, high⟩ | ⟨low, high⟩
    · have listed := (round.mem_iff (ones + 1) _).mpr ⟨q, neighbour _ (high.trans (low ▸ rfl)), rfl⟩
      exact merges_ofPattern_eq_false.mp (upper _ listed) m merged
    · subst high
      have listed := (round.mem_iff m.ones _).mpr ⟨q, neighbour _ low, rfl⟩
      exact merges_ofPattern_eq_false.mp (lower _ (by simpa using listed)) m merged.symm
  · rintro ⟨p, length, dashes, ⟨inside, isolated⟩, rfl⟩
    have apart (count : Nat) (b : Cube) (listed : b ∈ groups.getD count []) :
        ∃ q, b = .ofPattern q ∧ ∀ m, ¬ Merged p q m := by
      obtain ⟨q, member, rfl⟩ := (round.mem_iff count b).mp listed
      exact ⟨q, rfl, fun m merged => isolated q m merged member.inside⟩
    refine ⟨p.ones, (round.mem_iff _ _).mpr ⟨p, ⟨length, dashes, rfl, inside⟩, rfl⟩, ?_, ?_⟩
    · intro b listed
      cases count : p.ones with
      | zero => simp [count] at listed
      | succ ones =>
        obtain ⟨q, rfl, alone⟩ := apart ones b (by simpa [count] using listed)
        exact merges_ofPattern_eq_false.mpr fun m merged => alone m merged.symm
    · intro b listed
      obtain ⟨q, rfl, alone⟩ := apart _ b listed
      exact merges_ofPattern_eq_false.mpr alone

/-! ## All rounds -/

theorem unmerged_of_empty {below : List Cube} (empty : groups.all List.isEmpty = true) :
    unmerged below groups = [] := by
  induction groups generalizing below with
  | nil => rfl
  | cons group rest ih =>
    simp only [List.all_cons, Bool.and_eq_true, List.isEmpty_iff] at empty
    simp [unmerged, empty.1, ih empty.2]

theorem advance_of_empty (empty : groups.all List.isEmpty = true) :
    (advance groups).all List.isEmpty = true := by
  fun_induction advance groups with
  | case1 low high rest ih =>
    simp only [List.all_cons, Bool.and_eq_true, List.isEmpty_iff] at empty ih ⊢
    exact ⟨by simp [mergeGroups, empty.1], ih empty.2⟩
  | case2 groups _ => rfl

/-- Nothing is left over of groups that are all empty. -/
theorem flatMap_rounds_of_empty (empty : groups.all List.isEmpty = true) :
    (rounds bound groups).flatMap (unmerged []) = [] := by
  cases bound with
  | zero => rfl
  | succ bound => simp [rounds, advance_of_empty empty, unmerged_of_empty empty]

/-- What is left over does not depend on where the rounds stop. -/
theorem flatMap_rounds_succ (bound : Nat) (groups : Groups) :
    (rounds (bound + 1) groups).flatMap (unmerged []) =
      unmerged [] groups ++ (rounds bound (advance groups)).flatMap (unmerged []) := by
  rw [rounds, List.flatMap_cons]
  congr 1
  split
  · rename_i empty
    rw [flatMap_rounds_of_empty empty, List.flatMap_nil]
  · rfl

/-- The rounds from one on leave the isolated patterns with enough free positions. -/
theorem Round.mem_flatMap_rounds (round : Round terms width free groups) :
    c ∈ (rounds bound groups).flatMap (unmerged []) ↔ ∃ p : Pattern, p.length = width ∧
      free ≤ p.dashes ∧ p.dashes < free + bound ∧ p.Isolated terms ∧ c = .ofPattern p := by
  induction bound generalizing free groups with
  | zero =>
    simp only [rounds, List.flatMap_nil, List.not_mem_nil, false_iff]
    rintro ⟨p, _, least, most, _⟩
    omega
  | succ bound ih =>
    rw [flatMap_rounds_succ, List.mem_append, round.mem_unmerged_iff, ih round.advance]
    constructor
    · rintro (⟨p, length, dashes, isolated⟩ | ⟨p, length, least, most, isolated⟩)
      · exact ⟨p, length, by omega, by omega, isolated⟩
      · exact ⟨p, length, by omega, by omega, isolated⟩
    · rintro ⟨p, length, least, most, isolated⟩
      by_cases dashes : p.dashes = free
      · exact .inl ⟨p, length, dashes, isolated⟩
      · exact .inr ⟨p, length, by omega, by omega, isolated⟩

/-- The search finds the isolated patterns, each with the indices that it covers as its origins. -/
theorem mem_primes_iff_isolated (inside : ∀ t ∈ terms, t < 2 ^ width) : c ∈ primes terms width ↔
    ∃ p : Pattern, p.length = width ∧ p.Isolated terms ∧ c = .ofPattern p := by
  rw [primes, CubeList.mem_ofList, (round_start inside).mem_flatMap_rounds]
  refine exists_congr fun p => and_congr_right fun length => ?_
  have bounded : p.dashes < 0 + (width + 1) := by
    have most : p.dashes ≤ p.length := List.count_le_length
    omega
  exact ⟨fun found => found.2.2, fun isolated => ⟨Nat.zero_le _, bounded, isolated⟩⟩

/-- Every term is covered by a cube that the search finds: the pattern of its bits can be enlarged to an
isolated one. -/
theorem exists_covering (inside : ∀ t ∈ terms, t < 2 ^ width) {index : Nat} (term : index ∈ terms) :
    ∃ c ∈ primes terms width, c.covers index = true := by
  let point : Pattern := (Minterm.bits width index).map some
  have length : point.length = width := by simp [point]
  have small := inside index term
  have single {other : Nat} : other ∈ point.covered ↔ other = index := by
    rw [mem_covered_bits, Nat.mod_eq_of_lt small]
  have within : point.covered ⊆ terms := fun other member => single.mp member ▸ term
  obtain ⟨p, same, isolated, above⟩ := exists_isolated_above within
  have width_eq : p.length = width := same.trans length
  have covered : index ∈ p.covered := above index (single.mpr rfl)
  exact ⟨.ofPattern p, (mem_primes_iff_isolated inside).mpr ⟨p, width_eq, isolated, rfl⟩,
    Bool.and_eq_true_iff.mpr
      ⟨Minterm.inRange_of_lt (width_eq ▸ small), (Pattern.mem_covered.mp covered).2⟩⟩

/-- The search finds the prime patterns. -/
theorem mem_primes (inside : ∀ t ∈ terms, t < 2 ^ width) (narrow : width < Minterm.wordSize) :
    c ∈ primes terms width ↔
      ∃ p : Pattern, p.length = width ∧ p.IsPrime terms ∧ c = .ofPattern p := by
  rw [mem_primes_iff_isolated inside]
  refine exists_congr fun p => and_congr_right fun length => ?_
  rw [isPrime_iff (length ▸ narrow)]

end PrimeSearch

end Switching
