import Switching.Proofs.Session.Run
import Switching.Proofs.Session.Terms

/-! # Terms, cells and rows

The function of a session is held as cells, and shown as a list of terms or as a truth table. These say
the same (`cellOf_terms`, `mem_complement_terms`, `mem_maxterms_truthTable`), so that a session begins
again from its own terms (`ofTerms_terms`). A list of terms is refused for the first of its terms that
has no cell, in the order of the list (`ofTerms_eq_error_iff`).
-/

namespace Switching

/-- The first member that passes a test is the least one. -/
theorem IndexSet.find?_toList_eq_some_iff {indices : IndexSet} {test : Nat → Bool} {index : Nat} :
    indices.toList.find? test = some index ↔ IsLeast {i | i ∈ indices ∧ test i = true} index := by
  have least {first : Nat} (found : indices.toList.find? test = some first) :
      IsLeast {i | i ∈ indices ∧ test i = true} first := by
    obtain ⟨passed, before, after, split, failed⟩ := List.find?_eq_some_iff_append.mp found
    refine ⟨⟨List.mem_of_find?_eq_some found, passed⟩, ?_⟩
    rintro other ⟨member, also⟩
    have ordered := indices.sorted
    rw [← mem_toList, split] at member
    rw [split, List.pairwise_append] at ordered
    obtain earlier | here := List.mem_append.mp member
    · have fails := failed other earlier
      rw [also] at fails
      cases fails
    · obtain rfl | later := List.mem_cons.mp here
      · exact Nat.le_refl _
      · exact Nat.le_of_lt (List.rel_of_pairwise_cons ordered.2.1 later)
  refine ⟨least, fun smallest => ?_⟩
  have found : (indices.toList.find? test).isSome :=
    List.find?_isSome.mpr ⟨index, smallest.1.1, smallest.1.2⟩
  obtain ⟨first, found⟩ := Option.isSome_iff_exists.mp found
  rw [found, (least found).unique smallest]

namespace TermList

variable {terms : TermList} {width bound index : Nat}

theorem fits_iff (narrow : width < Minterm.wordSize) :
    terms.fits width = true ↔ ∀ index ∈ terms.indices, index < 2 ^ width := by
  rw [fits, List.all_eq_true]
  exact forall₂_congr fun index _ => Minterm.inRange_iff narrow

/-- The first index outside of a range is the least such minterm or, if there is none, the least such
don't-care term. -/
theorem find?_indices_eq_some_iff : terms.indices.find? (bound ≤ ·) = some index ↔
    IsLeast {i | i ∈ terms.minterms ∧ bound ≤ i} index ∨
      (∀ i ∈ terms.minterms, i < bound) ∧ IsLeast {i | i ∈ terms.dontcares ∧ bound ≤ i} index := by
  rw [indices, List.find?_append, Option.or_eq_some_iff, IndexSet.find?_toList_eq_some_iff,
    IndexSet.find?_toList_eq_some_iff, List.find?_eq_none]
  simp only [decide_eq_true_iff, Nat.not_le, IndexSet.mem_toList]

end TermList

namespace Session

variable {s : Session} {vars : Variables} {terms : TermList} {limits : Limits} {index : Nat}
  {value : Cell} {fault : Fault}

/-! ## Lists with a term that has no cell -/

/-- A list of terms is refused for its least minterm that has no cell or, if there is none, for its least
don't-care term that has no cell. -/
theorem ofTerms_eq_error_iff (held : vars.size ≤ limits.table) :
    ofTerms vars terms limits = .error fault ↔ ∃ index, fault = .noSuchCell index ∧
      (IsLeast {i | i ∈ terms.minterms ∧ 2 ^ vars.size ≤ i} index ∨
        (∀ i ∈ terms.minterms, i < 2 ^ vars.size) ∧
          IsLeast {i | i ∈ terms.dontcares ∧ 2 ^ vars.size ≤ i} index) := by
  simp only [← TermList.find?_indices_eq_some_iff]
  rw [ofTerms, blank_eq_ok_iff.mpr ⟨held, rfl⟩]
  simp only [bind, Except.bind, List.length_replicate]
  cases terms.indices.find? (2 ^ vars.size ≤ ·) with
  | none => simp [pure, Except.pure]
  | some index => simp [eq_comm]

/-! ## What a session shows -/

theorem mem_minterms_terms : index ∈ s.terms.minterms ↔ s.cell? index = some .one := mem_indicesOf

theorem mem_dontcares_terms : index ∈ s.terms.dontcares ↔ s.cell? index = some .dontCare :=
  mem_indicesOf

theorem cellOf_terms (found : s.cell? index = some value) : cellOf s.terms index = value := by
  cases value with
  | one => exact cellOf_eq_one_iff.mpr (mem_minterms_terms.mpr found)
  | dontCare =>
    exact cellOf_eq_dontCare_iff.mpr
      ⟨mem_dontcares_terms.mpr found, not_mem_indicesOf found (by decide)⟩
  | zero =>
    have one : index ∉ s.terms.minterms := not_mem_indicesOf found (by decide)
    have dontCare : index ∉ s.terms.dontcares := not_mem_indicesOf found (by decide)
    rw [cellOf, if_neg one, if_neg dontCare]

theorem exists_ofTerms_iff (held : vars.size ≤ limits.table) :
    (∃ start, ofTerms vars terms limits = .ok start) ↔
      ∀ index ∈ terms.indices, index < 2 ^ vars.size := by
  constructor
  · rintro ⟨start, loaded⟩
    exact (ofTerms_eq_ok_iff.mp loaded).2.1
  · intro inside
    exact ⟨_, ofTerms_eq_ok_iff.mpr ⟨held, inside, rfl⟩⟩

/-- A session begins again from its own terms. -/
theorem ofTerms_terms (sized : s.Sized) :
    ∃ start, ofTerms s.vars s.terms s.limits = .ok start ∧ start.withForm s.form = s := by
  have inside : ∀ index ∈ s.terms.indices, index < 2 ^ s.vars.size := by
    intro index listed
    obtain one | dontCare := List.mem_append.mp listed
    · exact sized.lt_of_cell? (mem_minterms_terms.mp one)
    · exact sized.lt_of_cell? (mem_dontcares_terms.mp dontCare)
  refine ⟨_, ofTerms_eq_ok_iff.mpr ⟨sized.size_le, inside, rfl⟩, ?_⟩
  have cells : (List.range (2 ^ s.vars.size)).map (cellOf s.terms) = s.cells := by
    refine List.ext_getElem (by simp [sized.length_cells]) fun index _ within => ?_
    rw [List.getElem_map, List.getElem_range]
    exact cellOf_terms (List.getElem?_eq_getElem within)
  rw [cells]
  rfl

/-- There is a value of one kind at each index over the variables, and none at others. -/
theorem Sized.cell?_cases_iff (sized : s.Sized) :
    (s.cell? index = some .one ∨ s.cell? index = some .dontCare) ∨ s.cell? index = some .zero ↔
      index < 2 ^ s.vars.size := by
  rw [← sized.isSome_cell?_iff, Option.isSome_iff_exists]
  constructor
  · rintro ((found | found) | found) <;> exact ⟨_, found⟩
  · rintro ⟨value, found⟩
    cases value with
    | zero => exact .inr found
    | one => exact .inl (.inl found)
    | dontCare => exact .inl (.inr found)

theorem mem_complement_terms (sized : s.Sized) :
    index ∈ s.terms.complement s.vars.size ↔ s.cell? index = some .zero := by
  rw [TermList.mem_complement, Minterm.count_eq, ← sized.cell?_cases_iff, mem_minterms_terms,
    mem_dontcares_terms]
  constructor
  · rintro ⟨(one | dontCare) | zero, notOne, notDontCare⟩
    · exact absurd one notOne
    · exact absurd dontCare notDontCare
    · exact zero
  · intro zero
    rw [zero]
    decide

theorem getElem?_outputs_truthTable {output : Bool} : s.truthTable.outputs[index]? = some output ↔
    ∃ value, s.cell? index = some value ∧ (value == .one) = output := by
  rw [truthTable, List.getElem?_map, Option.map_eq_some_iff]
  rfl

theorem mem_minterms_truthTable :
    index ∈ s.truthTable.minterms ↔ s.cell? index = some .one := by
  rw [TruthTable.minterms, TruthTable.mem_indicesOf, getElem?_outputs_truthTable]
  simp

theorem mem_maxterms_truthTable :
    index ∈ s.truthTable.maxterms ↔ s.cell? index = some .dontCare ∨ s.cell? index = some .zero := by
  rw [TruthTable.maxterms, TruthTable.mem_indicesOf, getElem?_outputs_truthTable]
  constructor
  · rintro ⟨value, found, other⟩
    cases value with
    | zero => exact .inr found
    | one => cases other
    | dontCare => exact .inl found
  · rintro (found | found) <;> exact ⟨_, found, rfl⟩

theorem length_rows_truthTable (sized : s.Sized) : s.truthTable.rows.length = 2 ^ s.vars.size := by
  rw [TruthTable.rows, List.length_mapIdx, truthTable, List.length_map, sized.length_cells]

/-- A list of terms over distinct letters is the function of a session if it fits, and is otherwise refused
for its least minterm that has no cell or, if there is none, its least don't-care term without one. The
session has its terms, where an index that is listed twice is a minterm.

However a session was reached, it begins again from its own terms. These and the indices that they leave
out are the indices of its cells, each in one of the three sets; the first is where its truth table is
true, the other two together where it is false. -/
theorem views_agree (distinct : vars.names.Nodup) (letters : ∀ name ∈ vars.names, name.isAlpha = true)
    (held : vars.size ≤ limits.table) (terms : TermList) (reachable : s.Reachable) :
    ((∃ start, ofTerms vars terms limits = .ok start) ↔ terms.fits vars.size = true) ∧
    (∀ fault, ofTerms vars terms limits = .error fault ↔ ∃ index, fault = .noSuchCell index ∧
      (IsLeast {i | i ∈ terms.minterms ∧ 2 ^ vars.size ≤ i} index ∨
        (∀ i ∈ terms.minterms, i < 2 ^ vars.size) ∧
          IsLeast {i | i ∈ terms.dontcares ∧ 2 ^ vars.size ≤ i} index)) ∧
    (∀ start, ofTerms vars terms limits = .ok start →
      start.terms = ⟨terms.minterms, terms.dontcares.diff terms.minterms⟩) ∧
    (∃ start, ofTerms s.vars s.terms s.limits = .ok start ∧ start.withForm s.form = s) ∧
    let zeros := s.terms.complement s.vars.size
    s.terms.minterms ∪ s.terms.dontcares ∪ zeros = IndexSet.range (2 ^ s.vars.size) ∧
    (∀ index ∈ s.terms.minterms, index ∉ s.terms.dontcares ∧ index ∉ zeros) ∧
    (∀ index ∈ s.terms.dontcares, index ∉ zeros) ∧
    s.truthTable.rows.length = 2 ^ s.vars.size ∧
    s.truthTable.minterms = s.terms.minterms ∧
    s.truthTable.maxterms = s.terms.dontcares ∪ zeros := by
  have sized := reachable.sized
  refine ⟨?_, fun fault => ofTerms_eq_error_iff held, fun start => terms_ofTerms, ofTerms_terms sized,
    ?_, ?_, ?_, length_rows_truthTable sized, ?_, ?_⟩
  · rw [TermList.fits_iff (Variables.size_lt_wordSize distinct letters)]
    exact exists_ofTerms_iff held
  · ext index
    rw [IndexSet.mem_union, IndexSet.mem_union, IndexSet.mem_range, mem_minterms_terms,
      mem_dontcares_terms, mem_complement_terms sized]
    exact sized.cell?_cases_iff
  · intro index one
    rw [mem_dontcares_terms, mem_complement_terms sized, mem_minterms_terms.mp one]
    decide
  · intro index dontCare
    rw [mem_complement_terms sized, mem_dontcares_terms.mp dontCare]
    decide
  · ext index
    exact mem_minterms_truthTable.trans mem_minterms_terms.symm
  · ext index
    rw [mem_maxterms_truthTable, IndexSet.mem_union, mem_dontcares_terms, mem_complement_terms sized]

/-- Of the terms 6 and 9 without a cell the first one is named, though a don't-care term below it has none
either; and a session with all kinds of cells begins again from its own terms. -/
theorem views_agree_outside :
    let vars : Variables := ⟨['A', 'b']⟩
    let limits : Limits := ⟨2, 0, 2⟩
    let terms : TermList := ⟨.ofList [9, 1, 6], .ofList [3, 4]⟩
    let s : Session := ⟨vars, .pos, [.dontCare, .one, .zero, .one], limits⟩
    vars.names.Nodup ∧ (∀ name ∈ vars.names, name.isAlpha = true) ∧ vars.size ≤ limits.table ∧
    s.Reachable ∧ terms.fits vars.size = false ∧ ofTerms vars terms limits = .error (.noSuchCell 6) ∧
    (∃ start, ofTerms s.vars s.terms s.limits = .ok start ∧ start.withForm s.form = s) ∧
    s.terms.minterms ∪ s.terms.dontcares ∪ s.terms.complement 2 = IndexSet.range 4 ∧
    s.truthTable.rows.length = 4 ∧
    s.truthTable.minterms = s.terms.minterms ∧
    s.truthTable.maxterms = s.terms.dontcares ∪ s.terms.complement 2 := by
  intro vars limits terms s
  have distinct : vars.names.Nodup := by decide
  have letters : ∀ name ∈ vars.names, name.isAlpha = true := by simp [vars]
  have held : vars.size ≤ limits.table := by decide
  let start : Session := { s with form := .sop }
  have loaded : ofTerms vars ⟨.ofList [1, 3], .ofList [0, 3]⟩ limits = .ok start := rfl
  have chosen : start.apply (.setForm .pos) = .ok s := rfl
  have reachable : s.Reachable := .edit (.ofTerms loaded) chosen
  obtain ⟨-, refused, -, again, whole, -, -, rows, minterms, maxterms⟩ :=
    views_agree distinct letters held terms reachable
  have least : IsLeast {i | i ∈ terms.minterms ∧ 2 ^ vars.size ≤ i} 6 := by
    refine ⟨by decide, ?_⟩
    rintro i ⟨member, outside⟩
    have below : ∀ i ∈ terms.minterms, 2 ^ vars.size ≤ i → 6 ≤ i := by decide
    exact below i member outside
  exact ⟨distinct, letters, held, reachable, by decide, (refused _).mpr ⟨6, rfl, .inl least⟩, again,
    whole, rows, minterms, maxterms⟩

end Session

end Switching
