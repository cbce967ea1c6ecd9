import Switching.Proofs.TermList.Reader

/-! # Why a text is refused

A text that is not a list of terms is refused with the column and the parts that the failures of the
rules give, and these are to the point: each of the parts could have gone on with what stands before
that column.
-/

namespace Switching.TermList

variable {text front : List Char} {part : TermPart}

theorem accepted_nil : Accepted [] :=
  ⟨[], [], .minterms ⟨[], [], [], isGaps_nil, .nil, isGaps_nil, rfl⟩⟩

theorem terms_eq_none_of_not_accepted (refused : ¬ Accepted text) : Rule.terms text = none := by
  rw [Option.eq_none_iff_forall_ne_some]
  rintro ⟨⟨minterms, others⟩, rest⟩ read
  exact refused ⟨minterms, others, (Rule.terms_eq_some_iff.mp read).1⟩

theorem canFollow_terms_nil : CanFollow [] .terms :=
  fun _ accepted => accepted

/-- What can be followed by some part is the beginning of a list of terms. -/
theorem CanFollow.exists_accepted (follows : CanFollow front part) :
    ∃ more, Accepted (front ++ more) := by
  cases part with
  | terms => exact ⟨[], follows [] accepted_nil⟩
  | value =>
    have zero : IsNumeral ['0'] := ⟨nofun, List.forall_mem_singleton.mpr rfl⟩
    obtain ⟨more, accepted⟩ := follows ['0'] zero
    exact ⟨_, (List.append_assoc ..) ▸ accepted⟩
  | dontcares => exact ⟨_, follows⟩
  | ending => exact ⟨[], (List.append_nil front).symm ▸ follows⟩

/-- A text that is not a list of terms is refused with what is reported of it: in front of the column
stands the beginning of a list of terms, and each of the expected parts could have gone on with it. -/
theorem ofString_reports (input : String) (refused : ¬ Accepted input.toList) :
    ∃ front rest expected, Rule.Reports input.toList front rest expected ∧
      ofString input = .error (.malformedTerms (front.length + 1) expected) ∧
      (∃ more, Accepted (front ++ more)) ∧ (∀ part ∈ expected, CanFollow front part) ∧
      (expected = [.terms] ∧ front = [] ∨ expected = [.value] ∨
        expected = [.ending, .dontcares, .value] ∨ expected = [.ending]) := by
  obtain ⟨minterms, middle, listed, rest, parts, stuck⟩ :=
    Rule.exists_stuck (terms_eq_none_of_not_accepted refused)
  obtain ⟨front, split, follows⟩ := stuck.canFollow listed
  have reports := stuck.reports listed split
  obtain ⟨stop, place, fails⟩ := numeralsOf_of_stuck listed stuck
  obtain rfl : stop = front.length + 1 := by
    rw [split, List.length_append] at place
    omega
  have outcome : ofString input = .error (.malformedTerms (front.length + 1)
      (if front.length + 1 = 1 then [.terms] else parts)) := by
    rw [ofString_eq, fails]
    rfl
  cases front with
  | nil =>
    have follows : ∀ part ∈ [TermPart.terms], CanFollow [] part :=
      List.forall_mem_singleton.mpr canFollow_terms_nil
    exact ⟨[], rest, [.terms], reports, outcome, canFollow_terms_nil.exists_accepted, follows,
      .inl ⟨rfl, rfl⟩⟩
  | cons c front =>
    obtain ⟨part, member⟩ := List.exists_mem_of_ne_nil parts stuck.parts_ne_nil
    exact ⟨c :: front, rest, parts, reports, outcome, (follows part member).exists_accepted, follows,
      .inr stuck.parts_eq⟩

/-- The don't-care terms are not closed: they stop behind a comma. -/
theorem ofString_reports_unclosed :
    ¬ Accepted "1 +d(2, x".toList ∧ ofString "1 +d(2, x" = .error (.malformedTerms 9 [.value]) ∧
      CanFollow "1 +d(2, ".toList .value := by
  have refused : ¬ Accepted "1 +d(2, x".toList := by
    rintro ⟨minterms, others, written⟩
    have none : Rule.terms "1 +d(2, x".toList = none := by decide +kernel
    cases none.symm.trans (Rule.terms_eq_some_iff.mpr ⟨written, rfl⟩)
  have outcome : ofString "1 +d(2, x" = .error (.malformedTerms 9 [.value]) := by decide +kernel
  refine ⟨refused, outcome, ?_⟩
  obtain ⟨front, rest, expected, reports, fails, -, follows, -⟩ := ofString_reports _ refused
  obtain ⟨column, rfl⟩ : front.length + 1 = 9 ∧ expected = [.value] := by
    have same := fails.symm.trans outcome
    simpa using same
  obtain rfl : front = "1 +d(2, ".toList := by
    have whole : front = "1 +d(2, x".toList.take front.length := by rw [reports.split, List.take_left]
    rw [whole, Nat.succ.inj column]
    decide
  exact follows .value (List.mem_singleton_self _)

end Switching.TermList
