import Switching.Proofs.Pattern.Coverage

/-! # Merging neighbouring patterns

`Merged p q m` says that `p` and `q` have opposite values at one position, that this position is free
in `m`, and that all three agree elsewhere. Both ways of merging establish it, and every fact about a
merged pattern is an induction on it. A pattern that covers fewer of some terms than it could has a
neighbour within them (`exists_neighbour`), so that the prime patterns are those without a neighbour
(`isPrime_iff`), and every pattern within the terms can be enlarged to such a one
(`exists_isolated_above`).
-/

namespace Switching.Pattern

/-- Two patterns are equal but for opposite values at one position, which is free in the third. -/
inductive Merged : Pattern → Pattern → Pattern → Prop where
  | here (value : Bool) (p : Pattern) : Merged (some value :: p) (some (!value) :: p) (none :: p)
  | there (x : Option Bool) {p q m : Pattern} : Merged p q m → Merged (x :: p) (x :: q) (x :: m)

theorem merge?_eq_some_iff {p q m : Pattern} : merge? p q = some m ↔ Merged p q m := by
  constructor
  · intro success
    induction p generalizing q m with
    | nil => simp [merge?] at success
    | cons x p ih =>
      cases q with
      | nil => simp [merge?] at success
      | cons y q =>
        by_cases first : x = y
        · subst first
          simp only [merge?, ↓reduceIte, Option.map_eq_some_iff] at success
          obtain ⟨rest, success, rfl⟩ := success
          exact .there x (ih success)
        · simp only [merge?, first, ↓reduceIte, Option.ite_none_right_eq_some, Bool.and_eq_true,
            Option.isSome_iff_exists, beq_iff_eq, Option.some.injEq] at success
          obtain ⟨⟨⟨⟨value, rfl⟩, ⟨other, rfl⟩⟩, rfl⟩, rfl⟩ := success
          obtain rfl : other = !value := by cases value <;> cases other <;> simp_all
          exact .here value p
  · intro merged
    induction merged with
    | here value p => cases value <;> simp [merge?]
    | there x _ ih => simp [merge?, ih]

theorem merged_of_mergeLeading? {p q m : Pattern} (success : mergeLeading? p q = some m) :
    Merged p q m := by
  induction p generalizing q m with
  | nil => simp [mergeLeading?] at success
  | cons x p ih =>
    match x, q with
    | none, _ => simp [mergeLeading?] at success
    | some _, [] => simp [mergeLeading?] at success
    | some _, none :: _ => simp [mergeLeading?] at success
    | some value, some other :: q =>
      by_cases first : value = other
      · subst first
        simp only [mergeLeading?, ↓reduceIte, Option.map_eq_some_iff] at success
        obtain ⟨rest, success, rfl⟩ := success
        exact .there _ (ih success)
      · simp only [mergeLeading?, first, ↓reduceIte, Option.ite_none_right_eq_some, beq_iff_eq,
          Option.some.injEq] at success
        obtain ⟨rfl, rfl⟩ := success
        obtain rfl : other = !value := by cases value <;> cases other <;> simp_all
        exact .here value p

/-- Give the first free position a value. -/
def fixLeading (value : Bool) : Pattern → Pattern
  | [] => []
  | none :: p => some value :: p
  | some x :: p => some x :: fixLeading value p

theorem ones_fixLeading {m : Pattern} (value : Bool) (free : 0 < m.dashes) :
    (m.fixLeading value).ones = m.ones + value.toNat := by
  induction m with
  | nil => simp [dashes] at free
  | cons x m ih =>
    cases x with
    | none => cases value <;> simp [fixLeading, ones]
    | some x =>
      have tail := ih (by simpa [dashes] using free)
      simp only [fixLeading, ones, List.count_cons] at tail ⊢
      omega

/-- A pattern with a free position arises from the two that fix the first one. -/
theorem mergeLeading?_fixLeading {m : Pattern} (free : 0 < m.dashes) :
    mergeLeading? (m.fixLeading false) (m.fixLeading true) = some m := by
  induction m with
  | nil => simp [dashes] at free
  | cons x m ih =>
    cases x with
    | none => simp [fixLeading, mergeLeading?]
    | some x => simp [fixLeading, mergeLeading?, ih (by simpa [dashes] using free)]

/-- It arises in this way only, the pattern with less ones being the first. -/
theorem eq_fixLeading {p q m : Pattern} (success : mergeLeading? p q = some m)
    (less : p.ones < q.ones) : p = m.fixLeading false ∧ q = m.fixLeading true := by
  induction p generalizing q m with
  | nil => simp [mergeLeading?] at success
  | cons x p ih =>
    match x, q with
    | none, _ => simp [mergeLeading?] at success
    | some _, [] => simp [mergeLeading?] at success
    | some _, none :: _ => simp [mergeLeading?] at success
    | some value, some other :: q =>
      by_cases first : value = other
      · subst first
        simp only [mergeLeading?, ↓reduceIte, Option.map_eq_some_iff] at success
        obtain ⟨rest, success, rfl⟩ := success
        have tail := ih success (by simpa [ones, List.count_cons] using less)
        exact ⟨congrArg _ tail.1, congrArg _ tail.2⟩
      · simp only [mergeLeading?, first, ↓reduceIte, Option.ite_none_right_eq_some, beq_iff_eq,
          Option.some.injEq] at success
        obtain ⟨rfl, rfl⟩ := success
        cases value <;> cases other <;> simp_all [ones, fixLeading]

namespace Merged

variable {p q m : Pattern}

theorem symm (merged : Merged p q m) : Merged q p m := by
  induction merged with
  | here value p => simpa only [Bool.not_not] using here (!value) p
  | there x _ ih => exact .there x ih

theorem right_unique {r : Pattern} (merged : Merged p q m) (other : Merged p r m) : q = r := by
  induction merged generalizing r with
  | here value p =>
    cases other with
    | here => rfl
  | there x _ ih =>
    cases other with
    | there _ rest => rw [ih rest]

theorem length_eq (merged : Merged p q m) : p.length = m.length := by
  induction merged with
  | here => rfl
  | there _ _ ih => simp only [List.length_cons, ih]

theorem agrees_eq (merged : Merged p q m) (index : Nat) :
    m.agrees index = (p.agrees index || q.agrees index) := by
  induction merged with
  | here value p =>
    simp only [agrees]
    cases value <;> cases index.testBit p.length <;> simp
  | @there x p q m inner ih =>
    cases x with
    | none => exact ih
    | some value =>
      simp only [agrees, ih, inner.length_eq, inner.symm.length_eq, Bool.and_or_distrib_left]

/-- No index has both of two opposite values. -/
theorem not_agrees (merged : Merged p q m) {index : Nat} (left : p.agrees index = true) :
    q.agrees index = false := by
  induction merged with
  | here value p =>
    simp only [agrees, Bool.and_eq_true, beq_iff_eq] at left ⊢
    simp [left.1]
  | @there x p q m inner ih =>
    cases x with
    | none => exact ih left
    | some value =>
      simp only [agrees, Bool.and_eq_true] at left ⊢
      simp [ih left.2]

theorem mem_covered_iff (merged : Merged p q m) {index : Nat} :
    index ∈ m.covered ↔ index ∈ p.covered ∨ index ∈ q.covered := by
  simp only [mem_covered, merged.agrees_eq, merged.length_eq, merged.symm.length_eq,
    Bool.or_eq_true]
  exact and_or_left

theorem covered_eq (merged : Merged p q m) : m.covered = p.covered ∪ q.covered := by
  ext index
  rw [merged.mem_covered_iff, IndexSet.mem_union]

theorem dashes_eq (merged : Merged p q m) : m.dashes = p.dashes + 1 := by
  induction merged with
  | here value p => simp [dashes]
  | there x _ ih =>
    simp only [dashes, List.count_cons] at ih ⊢
    omega

/-- One of the two patterns has an additional position that is fixed to true. -/
theorem ones_eq (merged : Merged p q m) :
    p.ones = m.ones ∧ q.ones = m.ones + 1 ∨ q.ones = m.ones ∧ p.ones = m.ones + 1 := by
  induction merged with
  | here value p => cases value <;> simp [ones]
  | there x _ ih =>
    simp only [ones, List.count_cons] at ih ⊢
    omega

end Merged

/-- A pattern that covers less than another one has a neighbour that covers no more than it. -/
theorem exists_neighbour {p q : Pattern} (same : p.length = q.length)
    (inclusion : p.covered ⊆ q.covered) (strict : ¬ q.covered ⊆ p.covered) :
    ∃ r m, Merged p r m ∧ r.covered ⊆ q.covered := by
  induction p generalizing q with
  | nil =>
    obtain rfl := List.eq_nil_of_length_eq_zero same.symm
    exact absurd inclusion strict
  | cons x p ih =>
    match q, same with
    | y :: q, same =>
      have tail : p.length = q.length := Nat.succ.inj same
      obtain ⟨first, others⟩ := (covered_cons_subset tail).mp inclusion
      rcases Decidable.em (y = x) with rfl | other
      · have strict : ¬ covered q ⊆ covered p := fun reverse =>
          strict ((covered_cons_subset tail.symm).mpr ⟨.inr rfl, reverse⟩)
        obtain ⟨r, m, merged, below⟩ := ih tail others strict
        have length : r.length = q.length :=
          (merged.symm.length_eq.trans merged.length_eq.symm).trans tail
        exact ⟨y :: r, y :: m, .there y merged, (covered_cons_subset length).mpr ⟨.inr rfl, below⟩⟩
      · obtain rfl := first.resolve_right other
        obtain ⟨value, rfl⟩ := Option.ne_none_iff_exists'.mp (Ne.symm other)
        have below : covered (some (!value) :: p) ⊆ covered (none :: q) :=
          (covered_cons_subset tail).mpr ⟨.inl rfl, others⟩
        exact ⟨some (!value) :: p, none :: p, .here value p, below⟩

/-- The pattern lies within the terms, but none of its neighbours does. -/
def Isolated (p : Pattern) (terms : IndexSet) : Prop :=
  p.covered ⊆ terms ∧ ∀ q m, Merged p q m → ¬ q.covered ⊆ terms

/-- A pattern within the terms is prime when none of its neighbours is within them. -/
theorem isPrime_iff {p : Pattern} {terms : IndexSet} (narrow : p.length < Minterm.wordSize) :
    p.IsPrime terms ↔ p.Isolated terms := by
  rw [IsPrime, Isolated, within_iff narrow]
  refine and_congr_right fun inside => ⟨fun maximal q m merged outside => ?_, fun isolated => ?_⟩
  · have length := merged.length_eq
    have enlarged : m.Within terms := by
      refine (within_iff (length ▸ narrow)).mpr fun index member => ?_
      exact (merged.mem_covered_iff.mp member).elim (inside index) (outside index)
    obtain ⟨index, member⟩ := exists_mem_covered q
    have reached := maximal m length.symm enlarged
      (fun i covered => (covers_iff (length ▸ narrow)).mpr
        (merged.mem_covered_iff.mpr (.inl ((covers_iff narrow).mp covered))))
      index ((covers_iff (length ▸ narrow)).mpr (merged.mem_covered_iff.mpr (.inr member)))
    have left := (mem_covered.mp ((covers_iff narrow).mp reached)).2
    have right := (mem_covered.mp member).2
    rw [merged.not_agrees left] at right
    exact absurd right Bool.false_ne_true
  · intro q same within below index covered
    have narrower : q.length < Minterm.wordSize := same ▸ narrow
    by_contra missing
    have inclusion : p.covered ⊆ q.covered := fun i member =>
      (covers_iff narrower).mp (below i ((covers_iff narrow).mpr member))
    have strict : ¬ q.covered ⊆ p.covered := fun reverse =>
      missing ((covers_iff narrow).mpr (reverse index ((covers_iff narrower).mp covered)))
    obtain ⟨r, m, merged, bounded⟩ := exists_neighbour same.symm inclusion strict
    exact isolated r m merged fun i member =>
      (within_iff narrower).mp within i (bounded i member)

/-- Every pattern within the terms is part of an isolated one. -/
theorem exists_isolated_above {p : Pattern} {terms : IndexSet} (inside : p.covered ⊆ terms) :
    ∃ q : Pattern, q.length = p.length ∧ q.Isolated terms ∧ p.covered ⊆ q.covered := by
  induction free : p.length - p.dashes using Nat.strongRecOn generalizing p with
  | ind fixed ih =>
    by_cases isolated : p.Isolated terms
    · exact ⟨p, rfl, isolated, fun _ member => member⟩
    · have neighbour : ∃ q m, Merged p q m ∧ q.covered ⊆ terms := by
        by_contra alone
        push Not at alone
        exact isolated ⟨inside, alone⟩
      obtain ⟨q, m, merged, outside⟩ := neighbour
      have length := merged.length_eq
      have freed := merged.dashes_eq
      have bound : m.dashes ≤ m.length := List.count_le_length
      have enlarged : m.covered ⊆ terms := fun index member =>
        (merged.mem_covered_iff.mp member).elim (inside index) (outside index)
      obtain ⟨r, same, isolated, above⟩ := ih _ (by omega) enlarged rfl
      exact ⟨r, same.trans length.symm, isolated, fun index member =>
        above index (merged.mem_covered_iff.mpr (.inl member))⟩

end Switching.Pattern
