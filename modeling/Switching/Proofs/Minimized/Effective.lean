import Switching.Proofs.Minimized

/-! # The terms that have an effect

The terms of a minimization are filtered at three places: nothing is searched when there are none, the
search leaves out those that are no minterms over the variables, and the chart also leaves out the
don't-care terms. Together this is the same as minimizing the don't-care terms over the variables and
the minterms over the variables that are not among them (`minimize_effective`).
-/

namespace Switching.Minimized

variable {minterms dontcares : IndexSet} {vars : Variables} {form : Form}

/-- An index is a term over the variables just if it is one after the terms were restricted. -/
theorem filter_union_effective (narrow : vars.size < Minterm.wordSize) :
    (minterms ∪ dontcares).filter (Minterm.inRange · vars.size) =
      ((minterms.diff dontcares).filter (· < 2 ^ vars.size) ∪
        dontcares.filter (· < 2 ^ vars.size)).filter (Minterm.inRange · vars.size) := by
  ext index
  simp only [IndexSet.mem_filter, IndexSet.mem_union, IndexSet.mem_diff, decide_eq_true_iff,
    Minterm.inRange_iff narrow]
  by_cases free : index ∈ dontcares <;> simp [free]

/-- An index has to be covered just if it has to be after the terms were restricted. -/
theorem filter_diff_effective (narrow : vars.size < Minterm.wordSize) :
    (minterms.diff dontcares).filter (Minterm.inRange · vars.size) =
      (((minterms.diff dontcares).filter (· < 2 ^ vars.size)).diff
        (dontcares.filter (· < 2 ^ vars.size))).filter (Minterm.inRange · vars.size) := by
  ext index
  simp only [IndexSet.mem_filter, IndexSet.mem_diff, decide_eq_true_iff,
    Minterm.inRange_iff narrow]
  by_cases free : index ∈ dontcares <;> simp [free]

/-- A minimization finds the same, in every part of its outcome, when the terms that are no minterms
over the variables are left out beforehand, and the don't-care terms are left out of the minterms. When
no term is a minterm over the variables, the search finds what is answered without a search for a
function without terms: no prime, no row of the chart, no selected cube and no constant. -/
theorem minimize_effective (minterms dontcares : IndexSet) {vars : Variables} (form : Form)
    (distinct : vars.names.Nodup) (letters : ∀ name ∈ vars.names, name.isAlpha = true) :
    let required := (minterms.diff dontcares).filter (· < 2 ^ vars.size)
    let free := dontcares.filter (· < 2 ^ vars.size)
    minimize minterms dontcares vars form = minimize required free vars form ∧
    minimize ∅ ∅ vars form = .empty form vars ∧
    ∀ others extra : IndexSet, (∀ t ∈ others ∪ extra, 2 ^ vars.size ≤ t) →
      search others extra vars form = minimize ∅ ∅ vars form := by
  intro required free
  have narrow := Variables.size_lt_wordSize distinct letters
  refine ⟨minimize_congr form (filter_union_effective narrow) (filter_diff_effective narrow), rfl,
    fun others extra outside => search_of_outside fun t member => ?_⟩
  rw [Bool.eq_false_iff, ne_eq, Minterm.inRange_iff narrow]
  exact Nat.not_lt.mpr (outside t member)

theorem minimize_effective_overlap :
    let vars : Variables := ⟨['b', 'A']⟩
    let minterms := IndexSet.ofList [0, 1, 4, 9]
    let dontcares := IndexSet.ofList [1, 3, 9, 12]
    let required := (minterms.diff dontcares).filter (· < 2 ^ vars.size)
    let free := dontcares.filter (· < 2 ^ vars.size)
    vars.names.Nodup ∧ (∀ name ∈ vars.names, name.isAlpha = true) ∧
    minimize minterms dontcares vars .pos = minimize required free vars .pos ∧
    minimize ∅ ∅ vars .pos = .empty .pos vars ∧
    ∀ others extra : IndexSet, (∀ t ∈ others ∪ extra, 2 ^ vars.size ≤ t) →
      search others extra vars .pos = minimize ∅ ∅ vars .pos :=
  have letters : ∀ name ∈ ['b', 'A'], name.isAlpha = true := by simp
  ⟨by decide, letters, minimize_effective _ _ .pos (by decide) letters⟩

end Switching.Minimized
