/-! # Finite sets of indices

A set of natural numbers is kept as the strictly increasing list of its members, so that two sets
with the same members are equal, and the order in which a set is written is its own. Every operation
is described by what it does to membership (`mem_insert`, `mem_union`, `mem_filter`), and `ext`
reduces an equation between sets to such statements.
-/

namespace Switching

/-- A finite set of natural numbers, listed in increasing order. -/
structure IndexSet where
  /-- The members, each once and smallest first. -/
  toList : List Nat
  /-- The members are strictly increasing. -/
  sorted : toList.Pairwise (· < ·)
deriving DecidableEq

namespace IndexSet

/-- Merge the sorted list `[x] ++ merge []` into a sorted list, where `merge` does the same for the
indices above `x`. -/
def insertThen (x : Nat) (merge : List Nat → List Nat) : List Nat → List Nat
  | [] => x :: merge []
  | y :: ys =>
    if x < y then x :: merge (y :: ys)
    else if x = y then x :: merge ys
    else y :: insertThen x merge ys

/-- Merge two sorted lists, keeping one copy of a shared index. -/
def mergeSorted : List Nat → List Nat → List Nat
  | [] => id
  | x :: xs => insertThen x (mergeSorted xs)

theorem mem_insertThen {x : Nat} {merge : List Nat → List Nat} {xs : List Nat}
    (merged : ∀ ys a, a ∈ merge ys ↔ a ∈ xs ∨ a ∈ ys) (ys : List Nat) (a : Nat) :
    a ∈ insertThen x merge ys ↔ a ∈ x :: xs ∨ a ∈ ys := by
  induction ys with
  | nil => simp [insertThen, merged]
  | cons y ys ih =>
    unfold insertThen
    split
    · simp [merged, or_assoc]
    · split
      · rename_i same
        subst same
        simp [merged]
        grind
      · simp [ih]
        grind

theorem mem_mergeSorted (xs ys : List Nat) (a : Nat) :
    a ∈ mergeSorted xs ys ↔ a ∈ xs ∨ a ∈ ys := by
  induction xs generalizing ys a with
  | nil => simp [mergeSorted]
  | cons x xs ih => exact mem_insertThen ih ys a

theorem sorted_mergeSorted {xs ys : List Nat} (left : xs.Pairwise (· < ·))
    (right : ys.Pairwise (· < ·)) : (mergeSorted xs ys).Pairwise (· < ·) := by
  induction xs generalizing ys with
  | nil => exact right
  | cons x xs outer =>
    obtain ⟨below, left⟩ := List.pairwise_cons.mp left
    induction ys with
    | nil =>
      refine List.pairwise_cons.mpr ⟨fun a member => ?_, outer left .nil⟩
      exact below a (((mem_mergeSorted xs [] a).mp member).resolve_right (by simp))
    | cons y ys inner =>
      obtain ⟨above, rest⟩ := List.pairwise_cons.mp right
      unfold mergeSorted insertThen
      split
      · refine List.pairwise_cons.mpr ⟨fun a member => ?_, outer left right⟩
        rcases (mem_mergeSorted xs _ a).mp member with member | member
        · exact below a member
        · rcases List.mem_cons.mp member with rfl | member
          · assumption
          · have := above a member
            omega
      · split
        · rename_i same
          subst same
          refine List.pairwise_cons.mpr ⟨fun a member => ?_, outer left rest⟩
          rcases (mem_mergeSorted xs _ a).mp member with member | member
          · exact below a member
          · exact above a member
        · refine List.pairwise_cons.mpr ⟨fun a member => ?_, inner rest⟩
          rcases (mem_insertThen (mem_mergeSorted xs) ys a).mp member with member | member
          · rcases List.mem_cons.mp member with rfl | member
            · omega
            · have := below a member
              omega
          · exact above a member

instance : EmptyCollection IndexSet := ⟨⟨[], .nil⟩⟩

instance : Inhabited IndexSet := ⟨∅⟩

instance : Membership Nat IndexSet := ⟨fun s a => a ∈ s.toList⟩

instance (a : Nat) (s : IndexSet) : Decidable (a ∈ s) := inferInstanceAs (Decidable (a ∈ s.toList))

instance (s : IndexSet) (P : Nat → Prop) [DecidablePred P] : Decidable (∀ a ∈ s, P a) :=
  inferInstanceAs (Decidable (∀ a ∈ s.toList, P a))

instance : HasSubset IndexSet := ⟨fun s t => ∀ a, a ∈ s → a ∈ t⟩

/-- The set of the members of either set. -/
protected def union (s t : IndexSet) : IndexSet :=
  ⟨mergeSorted s.toList t.toList, sorted_mergeSorted s.sorted t.sorted⟩

instance : Union IndexSet := ⟨IndexSet.union⟩

/-- The set of one index. -/
def singleton (a : Nat) : IndexSet :=
  ⟨[a], List.pairwise_singleton ..⟩

/-- Add an index to a set. -/
def insert (a : Nat) (s : IndexSet) : IndexSet :=
  singleton a ∪ s

/-- The set of the indices of a list. -/
def ofList (indices : List Nat) : IndexSet :=
  indices.foldr insert ∅

/-- The members that satisfy a test. -/
def filter (keep : Nat → Bool) (s : IndexSet) : IndexSet :=
  ⟨s.toList.filter keep, s.sorted.filter _⟩

/-- Take an index out of a set. -/
def erase (a : Nat) (s : IndexSet) : IndexSet :=
  s.filter (· != a)

/-- The members of the first set that are not in the second. -/
def diff (s t : IndexSet) : IndexSet :=
  s.filter (· ∉ t)

/-- The indices below a bound. -/
def range (bound : Nat) : IndexSet :=
  ⟨List.range bound, List.pairwise_lt_range⟩

/-- The number of members. -/
def size (s : IndexSet) : Nat :=
  s.toList.length

/-- Whether the set has no member. -/
def isEmpty (s : IndexSet) : Bool :=
  s.toList.isEmpty

theorem mem_toList {a : Nat} {s : IndexSet} : a ∈ s.toList ↔ a ∈ s := Iff.rfl

@[simp] theorem not_mem_empty (a : Nat) : a ∉ (∅ : IndexSet) := List.not_mem_nil

@[simp] theorem mem_union {a : Nat} {s t : IndexSet} : a ∈ s ∪ t ↔ a ∈ s ∨ a ∈ t :=
  mem_mergeSorted s.toList t.toList a

@[simp] theorem mem_singleton {a b : Nat} : a ∈ singleton b ↔ a = b := List.mem_singleton

@[simp] theorem mem_insert {a b : Nat} {s : IndexSet} : a ∈ insert b s ↔ a = b ∨ a ∈ s := by
  simp [insert]

@[simp] theorem mem_ofList {a : Nat} {indices : List Nat} : a ∈ ofList indices ↔ a ∈ indices := by
  induction indices with
  | nil => exact Iff.rfl
  | cons b indices ih => simpa [ofList] using or_congr_right ih

@[simp] theorem mem_filter {a : Nat} {keep : Nat → Bool} {s : IndexSet} :
    a ∈ s.filter keep ↔ a ∈ s ∧ keep a := List.mem_filter

@[simp] theorem mem_erase {a b : Nat} {s : IndexSet} : a ∈ s.erase b ↔ a ∈ s ∧ a ≠ b := by
  simp [erase]

@[simp] theorem mem_diff {a : Nat} {s t : IndexSet} : a ∈ s.diff t ↔ a ∈ s ∧ a ∉ t := by
  simp [diff]

@[simp] theorem mem_range {a bound : Nat} : a ∈ range bound ↔ a < bound := List.mem_range

/-- No index is listed twice. -/
theorem nodup_toList (s : IndexSet) : s.toList.Nodup :=
  s.sorted.imp Nat.ne_of_lt

/-- Sets with the same members are equal. -/
@[ext] theorem ext {s t : IndexSet} (same : ∀ a, a ∈ s ↔ a ∈ t) : s = t := by
  have listed : s.toList = t.toList :=
    ((List.perm_ext_iff_of_nodup s.nodup_toList t.nodup_toList).mpr same).eq_of_pairwise
      (fun _ _ _ _ below above => absurd above (Nat.lt_asymm below)) s.sorted t.sorted
  cases s
  cases t
  congr

theorem ofList_toList (s : IndexSet) : ofList s.toList = s := by
  ext a
  rw [mem_ofList, mem_toList]

end IndexSet

end Switching
