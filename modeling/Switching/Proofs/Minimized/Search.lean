import Switching.Minimized
import Switching.Proofs.PrimeSearch

/-! # The outcome of a search

A function without terms is minimized without a search, and the search would find nothing for it
(`search_of_outside`). So every minimization is the outcome of a search (`minimize_eq_search`), which
the other modules take apart by the equations of its fields.
-/

namespace Switching

namespace IndexSet

variable {s : IndexSet} {keep : Nat → Bool}

theorem eq_empty_iff : s = ∅ ↔ ∀ a, a ∉ s := by
  constructor
  · rintro rfl
    exact not_mem_empty
  · intro none
    ext a
    exact iff_of_false (none a) (not_mem_empty a)

theorem isEmpty_iff : s.isEmpty = true ↔ s = ∅ := by
  rw [isEmpty, List.isEmpty_iff, List.eq_nil_iff_forall_not_mem, eq_empty_iff]
  exact Iff.rfl

theorem filter_eq_empty_iff : s.filter keep = ∅ ↔ ∀ a ∈ s, keep a = false := by
  simp only [eq_empty_iff, mem_filter, not_and, Bool.not_eq_true]

end IndexSet

theorem CubeList.eq_empty {list : CubeList} (none : ∀ c, c ∉ list) : list = ∅ := by
  obtain ⟨cubes, distinct⟩ := list
  obtain rfl : cubes = [] := List.eq_nil_iff_forall_not_mem.mpr none
  rfl

/-- Without terms there is no prime cube. -/
theorem PrimeSearch.primes_empty (width : Nat) : primes ∅ width = ∅ := by
  refine CubeList.eq_empty fun c member => ?_
  have inside : ∀ t ∈ (∅ : IndexSet), t < 2 ^ width := fun t listed =>
    absurd listed (IndexSet.not_mem_empty t)
  obtain ⟨p, _, isolated, _⟩ := (mem_primes_iff_isolated inside).mp member
  obtain ⟨index, covered⟩ := Pattern.exists_mem_covered p
  exact IndexSet.not_mem_empty index (isolated.1 index covered)

namespace Minimized

variable {minterms dontcares : IndexSet} {vars : Variables} {form : Form}

/-- When no term is a minterm over the variables, a search finds nothing. -/
theorem search_of_outside
    (outside : ∀ t ∈ minterms ∪ dontcares, Minterm.inRange t vars.size = false) :
    search minterms dontcares vars form = .empty form vars := by
  have none : terms minterms dontcares vars = ∅ := IndexSet.filter_eq_empty_iff.mpr outside
  have free : required minterms dontcares vars = ∅ :=
    IndexSet.filter_eq_empty_iff.mpr fun t member =>
      outside t (IndexSet.mem_union.mpr (.inl (IndexSet.mem_diff.mp member).1))
  rw [search, none, free, PrimeSearch.primes_empty]
  rfl

/-- What is answered without a search is what a search would find. -/
theorem minimize_eq_search :
    minimize minterms dontcares vars form = search minterms dontcares vars form := by
  rw [minimize]
  split
  · next empty =>
    rw [Bool.and_eq_true, IndexSet.isEmpty_iff, IndexSet.isEmpty_iff] at empty
    obtain ⟨rfl, rfl⟩ := empty
    refine (search_of_outside fun t member => ?_).symm
    rcases IndexSet.mem_union.mp member with listed | listed
    · exact absurd listed (IndexSet.not_mem_empty t)
    · exact absurd listed (IndexSet.not_mem_empty t)
  · rfl

/-! ## The fields of the outcome -/

theorem primes_minimize : (minimize minterms dontcares vars form).primes =
    PrimeSearch.primes ((minterms ∪ dontcares).filter (Minterm.inRange · vars.size)) vars.size := by
  rw [minimize_eq_search]
  rfl

theorem chart_minimize : (minimize minterms dontcares vars form).chart =
    .build (minimize minterms dontcares vars form).primes
      ((minterms.diff dontcares).filter (Minterm.inRange · vars.size)) := by
  rw [minimize_eq_search]
  rfl

theorem minterms_chart (minterms dontcares : IndexSet) (vars : Variables) (form : Form) :
    (minimize minterms dontcares vars form).chart.minterms =
      ((minterms.diff dontcares).filter (Minterm.inRange · vars.size)).toList := by
  rw [chart_minimize, Chart.minterms_build]

theorem essentials_minimize : (minimize minterms dontcares vars form).essentials =
    (minimize minterms dontcares vars form).chart.essentials := by
  rw [minimize_eq_search]
  rfl

theorem chosen_minimize : (minimize minterms dontcares vars form).chosen =
    Cover.select Cube.covers (minimize minterms dontcares vars form).primes
      (minimize minterms dontcares vars form).chart := by
  rw [minimize_eq_search]
  rfl

theorem cover_minimize : (minimize minterms dontcares vars form).cover =
    (minimize minterms dontcares vars form).chosen.filterMap
      (minimize minterms dontcares vars form).primes.get? := by
  rw [minimize_eq_search]
  rfl

theorem render_minimize (style : Style) : (minimize minterms dontcares vars form).render style =
    style.render form vars (minimize minterms dontcares vars form).cover := by
  rw [minimize_eq_search]
  rfl

theorem text_minimize : (minimize minterms dontcares vars form).text =
    (minimize minterms dontcares vars form).render .textbook := by
  rw [minimize_eq_search]
  rfl

end Minimized

/-- A minimization depends on the terms over the variables and on those of them that are required. -/
theorem minimize_congr {minterms dontcares others free : IndexSet} {vars : Variables} (form : Form)
    (terms : (minterms ∪ dontcares).filter (Minterm.inRange · vars.size) =
      (others ∪ free).filter (Minterm.inRange · vars.size))
    (required : (minterms.diff dontcares).filter (Minterm.inRange · vars.size) =
      (others.diff free).filter (Minterm.inRange · vars.size)) :
    minimize minterms dontcares vars form = minimize others free vars form := by
  simp only [Minimized.minimize_eq_search, Minimized.search, Minimized.terms, Minimized.required, terms,
    required]

end Switching
