import Switching.Proofs.Session.Minimization

/-! # Minimizing the function of a list of terms

A list of terms can be minimized as it is or as the function of a session. The session holds the same
terms, except that an index that is listed twice is a minterm only (`terms_ofTerms`), while a
minimization does not require it. Both find the same primes and, if no index is listed twice, they
agree altogether (`minimize_ofTerms`); otherwise their charts differ.
-/

namespace Switching

/-! ## Sets of terms that overlap -/

namespace IndexSet

variable {s t : IndexSet}

theorem union_diff_left (s t : IndexSet) : s ∪ t.diff s = s ∪ t := by
  ext index
  rw [mem_union, mem_union, mem_diff]
  tauto

theorem diff_diff_left (s t : IndexSet) : s.diff (t.diff s) = s := by
  ext index
  rw [mem_diff, mem_diff]
  tauto

theorem diff_eq_left_iff : s.diff t = s ↔ ∀ index ∈ s, index ∉ t := by
  constructor
  · intro same index listed
    rw [← same] at listed
    exact (mem_diff.mp listed).2
  · intro apart
    ext index
    rw [mem_diff, and_iff_left_iff_imp]
    exact apart index

end IndexSet

/-! ## What a minimization depends on -/

/-- The primes depend on the terms over the variables only. -/
theorem primes_congr {minterms dontcares others free : IndexSet} {vars : Variables} (form : Form)
    (terms : minterms ∪ dontcares = others ∪ free) :
    (minimize minterms dontcares vars form).primes = (minimize others free vars form).primes := by
  rw [Minimized.primes_minimize, Minimized.primes_minimize, terms]

/-- When all minterms are over the variables, those that are no don't-care terms are required. -/
theorem minterms_chart_minimize {minterms : IndexSet} (dontcares : IndexSet) {vars : Variables}
    (form : Form) (inside : ∀ index ∈ minterms, index < 2 ^ vars.size) :
    (minimize minterms dontcares vars form).chart.minterms = (minterms.diff dontcares).toList := by
  have all : (minterms.diff dontcares).filter (Minterm.inRange · vars.size) =
      minterms.diff dontcares := by
    ext index
    rw [IndexSet.mem_filter, IndexSet.mem_diff, and_iff_left_iff_imp]
    rintro ⟨listed, _⟩
    rw [Minterm.inRange, Minterm.count_eq, decide_eq_true (inside index listed), Bool.or_true]
  rw [Minimized.minterms_chart, all]

/-! ## Sessions that begin with a list of terms -/

namespace Session

variable {s : Session} {vars : Variables} {terms : TermList} {limits : Limits}

theorem cellOf_eq_one_iff {index : Nat} : cellOf terms index = .one ↔ index ∈ terms.minterms := by
  rw [cellOf]
  split
  · next listed => exact iff_of_true rfl listed
  · next absent => exact iff_of_false (by split <;> decide) absent

theorem cellOf_eq_dontCare_iff {index : Nat} :
    cellOf terms index = .dontCare ↔ index ∈ terms.dontcares ∧ index ∉ terms.minterms := by
  rw [cellOf]
  split
  · next listed => exact iff_of_false (by decide) fun both => both.2 listed
  · next absent =>
    split
    · next free => exact iff_of_true rfl ⟨free, absent⟩
    · next closed => exact iff_of_false (by decide) fun both => closed both.1

theorem cell?_ofTerms (loaded : ofTerms vars terms limits = .ok s) {index : Nat} {value : Cell} :
    s.cell? index = some value ↔ index < 2 ^ vars.size ∧ cellOf terms index = value := by
  obtain ⟨_, _, rfl⟩ := ofTerms_eq_ok_iff.mp loaded
  rw [cell?, List.getElem?_eq_some_iff]
  simp

/-- The terms of a session that begins with a list of terms: those of the list, where an index that is
listed twice is a minterm. -/
theorem terms_ofTerms (loaded : ofTerms vars terms limits = .ok s) :
    s.terms = ⟨terms.minterms, terms.dontcares.diff terms.minterms⟩ := by
  obtain ⟨_, inside, _⟩ := ofTerms_eq_ok_iff.mp loaded
  have minterms : s.indicesOf .one = terms.minterms := by
    ext index
    rw [mem_indicesOf, cell?_ofTerms loaded, cellOf_eq_one_iff, and_iff_right_iff_imp]
    exact fun listed => inside index (List.mem_append_left _ listed)
  have dontcares : s.indicesOf .dontCare = terms.dontcares.diff terms.minterms := by
    ext index
    rw [mem_indicesOf, cell?_ofTerms loaded, cellOf_eq_dontCare_iff, IndexSet.mem_diff,
      and_iff_right_iff_imp]
    exact fun listed => inside index (List.mem_append_right _ listed.1)
  rw [Session.terms, minterms, dontcares]

/-- A list of terms over the variables is minimized as the function of a session as if no minterm was
listed a second time. The primes are those of minimizing the list as it is. Its chart, which leaves out
an index that is listed twice, is the same one just if there is no such index, and then the outcomes
are equal. -/
theorem minimize_ofTerms (held : vars.size ≤ limits.table) (searched : vars.size ≤ limits.minimize)
    (inside : ∀ index ∈ terms.indices, index < 2 ^ vars.size) :
    ∃ s m, ofTerms vars terms limits = .ok s ∧ (s.withForm .sop).minimize = .ok m ∧
      let direct := Switching.minimize terms.minterms terms.dontcares vars .sop
      m = Switching.minimize terms.minterms (terms.dontcares.diff terms.minterms) vars .sop ∧
      m.primes = direct.primes ∧
      m.chart.minterms = terms.minterms.toList ∧
      direct.chart.minterms = (terms.minterms.diff terms.dontcares).toList ∧
      ((∀ index ∈ terms.minterms, index ∉ terms.dontcares) → m = direct) ∧
      (m.chart = direct.chart → ∀ index ∈ terms.minterms, index ∉ terms.dontcares) := by
  have loaded := ofTerms_eq_ok_iff.mpr ⟨held, inside, rfl⟩
  have minterms (index : Nat) (listed : index ∈ terms.minterms) : index < 2 ^ vars.size :=
    inside index (List.mem_append_left _ listed)
  have session := minterms_chart_minimize (terms.dontcares.diff terms.minterms) .sop minterms
  have direct := minterms_chart_minimize terms.dontcares .sop minterms
  rw [IndexSet.diff_diff_left] at session
  refine ⟨_, _, loaded, minimize_withForm_eq_ok_iff.mpr ⟨searched, rfl⟩, ?_⟩
  rw [outcome, terms_ofTerms loaded]
  refine ⟨rfl, primes_congr .sop (IndexSet.union_diff_left ..), session, direct, fun apart => ?_,
    fun same => ?_⟩
  · refine minimize_congr .sop (by rw [IndexSet.union_diff_left]) ?_
    rw [IndexSet.diff_diff_left, IndexSet.diff_eq_left_iff.mpr apart]
  · rw [same, direct] at session
    refine IndexSet.diff_eq_left_iff.mp (IndexSet.ext fun index => ?_)
    rw [← IndexSet.mem_toList, session, IndexSet.mem_toList]

theorem minimize_ofTerms_overlap :
    let vars : Variables := ⟨['A', 'B']⟩
    let terms : TermList := ⟨.ofList [1, 2], .ofList [2, 3]⟩
    let limits : Limits := ⟨2, 0, 2⟩
    vars.size ≤ limits.table ∧ vars.size ≤ limits.minimize ∧
    (∀ index ∈ terms.indices, index < 2 ^ vars.size) ∧
    ∃ s m, ofTerms vars terms limits = .ok s ∧ (s.withForm .sop).minimize = .ok m ∧
      let direct := Switching.minimize terms.minterms terms.dontcares vars .sop
      m = Switching.minimize terms.minterms (terms.dontcares.diff terms.minterms) vars .sop ∧
      m.primes = direct.primes ∧
      m.chart.minterms = terms.minterms.toList ∧
      direct.chart.minterms = (terms.minterms.diff terms.dontcares).toList ∧
      ((∀ index ∈ terms.minterms, index ∉ terms.dontcares) → m = direct) ∧
      (m.chart = direct.chart → ∀ index ∈ terms.minterms, index ∉ terms.dontcares) := by
  intro vars terms limits
  have inside : ∀ index ∈ terms.indices, index < 2 ^ vars.size := by decide
  exact ⟨by decide, by decide, inside, minimize_ofTerms (by decide) (by decide) inside⟩

/-- One index that is listed as a minterm and as a don't-care term: the session has to cover it, the
list as it is leaves it open. -/
theorem minimize_ofTerms_listed_twice :
    let vars : Variables := ⟨['A']⟩
    let terms : TermList := ⟨.ofList [1], .ofList [1]⟩
    let direct := Switching.minimize terms.minterms terms.dontcares vars .sop
    ∃ s m, vars.Lettered ∧ (∀ index ∈ terms.indices, index < 2 ^ vars.size) ∧
      ofTerms vars terms .standard = .ok s ∧ (s.withForm .sop).minimize = .ok m ∧
      m.chart = ⟨[(1, [0])]⟩ ∧ direct.chart = ⟨[]⟩ ∧ m.chosen = [0] ∧ direct.chosen = [] ∧
      m.text = "A" ∧ direct.text = "0" ∧
      ¬ (m.chart = direct.chart ∧ m.chosen = direct.chosen ∧ m.text = direct.text) := by
  intro vars terms direct
  let s : Session := ⟨vars, .sop, [.zero, .one], .standard⟩
  have session : (s.outcome .sop).chart = ⟨[(1, [0])]⟩ ∧ (s.outcome .sop).chosen = [0] ∧
      (s.outcome .sop).text = "A" := by decide +kernel
  have whole : direct.chart = ⟨[]⟩ ∧ direct.chosen = [] ∧ direct.text = "0" := by decide +kernel
  refine ⟨s, s.outcome .sop, by decide, by decide, rfl, rfl, session.1, whole.1, session.2.1, whole.2.1,
    session.2.2, whole.2.2, ?_⟩
  rintro ⟨same, _⟩
  cases session.1.symm.trans (same.trans whole.1)

end Session

end Switching
