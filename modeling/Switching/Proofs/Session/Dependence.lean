import Switching.Proofs.Form.Letters
import Switching.Proofs.Session.Notation

/-! # The variables that a minimized text mentions

A function depends on a variable when two indices that differ in its bit only have different values. The
selected cubes are primes, so that each fixed position of one of them shows such indices
(`exists_differAt_of_fixes`), and they cover the terms and nothing else, so that some of them fixes each
position on which the function depends (`exists_fixes_of_differAt`). The text of a session without open
cells thus mentions just the variables on which its function depends (`letters_minimize_text`).
-/

namespace Switching

open Minterm

namespace Minimized

variable {minterms dontcares : IndexSet} {vars : Variables} {form : Form} {c : Cube}
  {position index other : Nat}

/-- Where a selected cube has a fixed position, flipping its bit leads from a term to an index that is
none. -/
theorem exists_differAt_of_fixes (narrow : vars.size < wordSize)
    (member : c ∈ (minimize minterms dontcares vars form).cover) (fixes : c.pattern.Fixes position) :
    ∃ index other, DifferAt vars.size position index other ∧
      (index ∈ minterms ∨ index ∈ dontcares) ∧ other ∉ minterms ∧ other ∉ dontcares := by
  obtain ⟨p, length, isolated, rfl⟩ :=
    (mem_primes_iff_isolated form (.of_narrow narrow)).mp (mem_primes_of_mem_cover member)
  obtain ⟨index, other, differ, term, absent⟩ := isolated.exists_differAt fixes
  rw [length] at differ
  rw [IndexSet.mem_filter, IndexSet.mem_union, decide_eq_true_iff, not_and'] at absent
  exact ⟨index, other, differ, IndexSet.mem_union.mp (IndexSet.mem_filter.mp term).1,
    not_or.mp (absent differ.other_lt)⟩

/-- When flipping the bit at a position leads from a required minterm to an index that is no term, the
cube that covers the minterm fixes this position. -/
theorem exists_fixes_of_differAt (form : Form) (narrow : vars.size < wordSize)
    (differ : DifferAt vars.size position index other) (term : index ∈ minterms)
    (required : index ∉ dontcares) (absent : other ∉ minterms) (closed : other ∉ dontcares) :
    ∃ c ∈ (minimize minterms dontcares vars form).cover, c.pattern.Fixes position := by
  obtain ⟨c, member, agrees⟩ := exists_agrees form narrow term required differ.index_lt
  refine ⟨c, member, ?_⟩
  by_contra free
  have length : c.pattern.length = vars.size := width_of_mem_cover narrow member
  have reached := Pattern.agrees_of_differAt (length ▸ differ) free agrees
  rw [agrees_eq_false narrow member absent closed differ.other_lt] at reached
  cases reached

/-- Without don't-care terms, the letters of the text name the positions at which flipping a bit leads
from a minterm to an index that is none. -/
theorem mem_text_iff (form : Form) (narrow : vars.size < wordSize) (closed : ∀ index, index ∉ dontcares)
    {letter : Char} (alpha : letter.isAlpha = true) :
    letter ∈ (minimize minterms dontcares vars form).text.toList ↔
      ∃ position, vars.names[position]? = some letter ∧
        ∃ index other, DifferAt vars.size position index other ∧ index ∈ minterms ∧ other ∉ minterms := by
  rw [text_minimize, render_minimize, Style.mem_render_iff (List.mem_cons_self ..) alpha]
  refine exists_congr fun position => and_congr_right fun _ => ?_
  constructor
  · rintro ⟨c, member, fixes⟩
    obtain ⟨index, other, differ, term, absent, _⟩ := exists_differAt_of_fixes narrow member fixes
    exact ⟨index, other, differ, term.resolve_right (closed index), absent⟩
  · rintro ⟨index, other, differ, term, absent⟩
    exact exists_fixes_of_differAt form narrow differ term (closed index) absent (closed other)

end Minimized

theorem Cell.ofBool_inj {first second : Bool} : ofBool first = ofBool second ↔ first = second := by
  revert first second
  decide

namespace Session

variable {s : Session} {m : Minimized} {position : Nat}

theorem exists_value (sized : s.Sized) (closed : ∀ index, s.cell? index ≠ some .dontCare) {index : Nat}
    (inside : index < 2 ^ s.vars.size) : ∃ value : Bool, s.cell? index = some (.ofBool value) := by
  obtain ⟨cell, found⟩ : ∃ cell, s.cell? index = some cell :=
    ⟨_, List.getElem?_eq_getElem (sized.length_cells ▸ inside)⟩
  cases cell with
  | zero => exact ⟨false, found⟩
  | one => exact ⟨true, found⟩
  | dontCare => exact absurd found (closed index)

/-- Of two indices with different cells, one has the given value. -/
theorem dependsOn_iff (sized : s.Sized) (closed : ∀ index, s.cell? index ≠ some .dontCare)
    (value : Bool) : s.DependsOn position ↔
      ∃ index other, DifferAt s.vars.size position index other ∧
        s.cell? index = some (.ofBool value) ∧ s.cell? other ≠ some (.ofBool value) := by
  constructor
  · rintro ⟨index, other, differ, different⟩
    by_cases here : s.cell? index = some (.ofBool value)
    · exact ⟨index, other, differ, here, fun there => different (here.trans there.symm)⟩
    · refine ⟨other, index, differ.symm, ?_, here⟩
      obtain ⟨first, found⟩ := exists_value sized closed differ.index_lt
      obtain ⟨second, listed⟩ := exists_value sized closed differ.other_lt
      rw [found, listed, Ne, Option.some.injEq, Cell.ofBool_inj] at different
      rw [found, Option.some.injEq, Cell.ofBool_inj] at here
      rw [listed, Bool.eq_not.mpr (Ne.symm different), ← Bool.eq_not.mpr (Ne.symm here)]
  · rintro ⟨index, other, differ, here, there⟩
    exact ⟨index, other, differ, fun same => there (same.symm.trans here)⟩

/-- A session without open cells is minimized by a search for the indices with one of the two values,
unless it is false everywhere. -/
theorem exists_outcome_eq_of_closed (sized : s.Sized)
    (closed : ∀ index, s.cell? index ≠ some .dontCare) {form : Form}
    (searched : form = .sop ∨ ∃ index, s.cell? index = some .one) :
    ∃ minterms dontcares value,
      s.outcome form = Switching.minimize minterms dontcares s.vars form ∧
      (∀ index, index ∉ dontcares) ∧
      ∀ index < 2 ^ s.vars.size, index ∈ minterms ↔ s.cell? index = some (.ofBool value) := by
  have free (index : Nat) : index ∉ s.terms.dontcares :=
    fun member => closed index (mem_indicesOf.mp member)
  cases form with
  | sop => exact ⟨_, _, true, rfl, free, fun index _ => mem_indicesOf⟩
  | pos =>
    obtain ⟨one, found⟩ := searched.resolve_left nofun
    refine ⟨_, _, false, if_neg fun empty => isEmpty_minterms_iff.mp empty one found, free,
      fun index inside => ?_⟩
    have other : index ∉ s.terms.minterms ↔ s.cell? index ≠ some .one := not_congr mem_indicesOf
    obtain ⟨value, cell⟩ := exists_value sized closed inside
    rw [TermList.mem_complement, count_eq, other, cell]
    simp [inside, free index, Cell.ofBool_eq_one_iff, Cell.ofBool_inj]

/-- However a session without open cells over distinct letters was reached, the text of its minimization
in either form mentions the variables on which its function depends, and no others. -/
theorem letters_minimize_text (reachable : s.Reachable) (lettered : s.vars.Lettered)
    (closed : ∀ index, s.cell? index ≠ some .dontCare) {form : Form}
    (success : (s.withForm form).minimize = .ok m) :
    ∀ letter : Char, letter ∈ m.text.toList ∧ letter.isAlpha = true ↔
      ∃ position, s.vars.names[position]? = some letter ∧ s.DependsOn position := by
  intro letter
  obtain ⟨_, rfl⟩ := minimize_withForm_eq_ok_iff.mp success
  have sized := reachable.sized
  have alpha {position : Nat} (found : s.vars.names[position]? = some letter) :
      letter.isAlpha = true := isAlpha_of_isUpper (lettered.2 letter (List.mem_of_getElem? found))
  by_cases searched : form = .sop ∨ ∃ index, s.cell? index = some .one
  · obtain ⟨minterms, dontcares, value, same, free, mem_iff⟩ :=
      exists_outcome_eq_of_closed sized closed searched
    have depends (position : Nat) : s.DependsOn position ↔ ∃ index other,
        DifferAt s.vars.size position index other ∧ index ∈ minterms ∧ other ∉ minterms := by
      rw [dependsOn_iff sized closed value]
      refine exists₂_congr fun index other => and_congr_right fun differ => ?_
      rw [mem_iff index differ.index_lt, mem_iff other differ.other_lt]
    simp only [same, depends]
    constructor
    · rintro ⟨written, isAlpha⟩
      exact (Minimized.mem_text_iff form lettered.narrow free isAlpha).mp written
    · rintro ⟨position, found, differ⟩
      exact ⟨(Minimized.mem_text_iff form lettered.narrow free (alpha found)).mpr
        ⟨position, found, differ⟩, alpha found⟩
  · have absent (index : Nat) : s.cell? index ≠ some .one := fun one => searched (.inr ⟨index, one⟩)
    cases form with
    | sop => exact absurd (.inl rfl) searched
    | pos =>
      -- The text is the constant 0, and no two cells are different.
      have zero : (Minimized.ofConstant .pos s.vars false).text.toList = ['0'] :=
        String.toList_singleton _
      rw [outcome_of_absent absent, zero, List.mem_singleton]
      refine iff_of_false ?_ ?_
      · rintro ⟨rfl, isAlpha⟩
        cases isAlpha
      · rintro ⟨position, _, depends⟩
        obtain ⟨index, other, _, one, _⟩ := (dependsOn_iff sized closed true).mp depends
        exact absent index one

theorem letters_minimize_text_dropped :
    let s : Session :=
      ⟨⟨['C', 'A', 'B']⟩, .sop, [.zero, .zero, .one, .one, .one, .one, .one, .one], .standard⟩
    let m := s.outcome .pos
    s.Reachable ∧ s.vars.Lettered ∧ (∀ index, s.cell? index ≠ some .dontCare) ∧
    (s.withForm .pos).minimize = .ok m ∧
    ∀ letter : Char, letter ∈ m.text.toList ∧ letter.isAlpha = true ↔
      ∃ position, s.vars.names[position]? = some letter ∧ s.DependsOn position := by
  intro s m
  have loaded : ofTerms s.vars ⟨.ofList [2, 3, 4, 5, 6, 7], ∅⟩ s.limits = .ok s := rfl
  have closed : ∀ index, s.cell? index ≠ some .dontCare := by
    intro index found
    have listed : Cell.dontCare ∈ s.cells := List.mem_of_getElem? found
    exact absurd listed (by decide)
  have success : (s.withForm .pos).minimize = .ok m := rfl
  exact ⟨.ofTerms loaded, by decide, closed, success,
    letters_minimize_text (.ofTerms loaded) (by decide) closed success⟩

end Session

end Switching
