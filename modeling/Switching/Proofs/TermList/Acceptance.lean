import Switching.Proofs.TermList.Reader

/-! # Which texts are lists of terms

A text is refused for its form just if the grammar does not describe it. Otherwise its numerals decide:
the list holds what they denote, unless one of them is too large for an index, in which case the first
of those is named.
-/

namespace Switching.TermList

variable {digits text : List Char} {before after minterms others numerals : List (List Char)}

/-- The number that a numeral denotes. -/
def valueOf (digits : List Char) : Nat :=
  Nat.ofDigitChars 10 digits 0

/-- A numeral denotes an index: a number that fits into a machine word. -/
def Fits (digits : List Char) : Prop :=
  valueOf digits < 2 ^ 64

instance (digits : List Char) : Decidable (Fits digits) :=
  inferInstanceAs (Decidable (valueOf digits < 2 ^ 64))

/-! ## Indices -/

theorem readIndex_of_fits (fits : Fits digits) : readIndex digits = .ok (valueOf digits) :=
  if_pos fits

theorem readIndex_of_not_fits (large : ¬ Fits digits) :
    readIndex digits = .error (.termTooLarge (String.ofList digits)) :=
  if_neg large

theorem readIndices_of_fits (fits : ∀ digits ∈ numerals, Fits digits) :
    readIndices numerals = .ok (.ofList (numerals.map valueOf)) := by
  have read : numerals.mapM readIndex = .ok (numerals.map valueOf) := by
    rw [mapM_eq_ok_iff, List.map_map]
    exact List.map_congr_left fun digits member => readIndex_of_fits (fits digits member)
  rw [readIndices, read]
  rfl

theorem readIndices_of_not_fits (fits : ∀ digits ∈ before, Fits digits) (large : ¬ Fits digits) :
    readIndices (before ++ digits :: after) = .error (.termTooLarge (String.ofList digits)) := by
  have fails : (before ++ digits :: after).mapM readIndex =
      .error (.termTooLarge (String.ofList digits)) :=
    mapM_eq_error (fun earlier member => ⟨_, readIndex_of_fits (fits earlier member)⟩)
      (readIndex_of_not_fits large)
  rw [readIndices, fails]
  rfl

/-- Either all numerals denote indices, or there is a first one that does not. -/
theorem fits_or_exists_first (numerals : List (List Char)) :
    (∀ digits ∈ numerals, Fits digits) ∨ ∃ before digits after,
      numerals = before ++ digits :: after ∧ (∀ earlier ∈ before, Fits earlier) ∧ ¬ Fits digits := by
  induction numerals with
  | nil => exact .inl nofun
  | cons first numerals ih =>
    by_cases fits : Fits first
    · obtain all | ⟨before, digits, after, rfl, earlier, large⟩ := ih
      · exact .inl (List.forall_mem_cons.mpr ⟨fits, all⟩)
      · exact .inr ⟨first :: before, digits, after, rfl, List.forall_mem_cons.mpr ⟨fits, earlier⟩, large⟩
    · exact .inr ⟨[], first, numerals, rfl, nofun, fits⟩

/-! ## Texts -/

variable {input : String}

theorem ofString_of_written (written : Written input.toList minterms others) :
    ofString input = do return ⟨← readIndices minterms, ← readIndices others⟩ := by
  rw [ofString_eq, numeralsOf_of_terms (Rule.terms_eq_some_iff.mpr ⟨written, rfl⟩)]
  rfl

theorem ofString_of_fits (written : Written input.toList minterms others)
    (fits : ∀ digits ∈ minterms ++ others, Fits digits) :
    ofString input = .ok ⟨.ofList (minterms.map valueOf), .ofList (others.map valueOf)⟩ := by
  obtain ⟨left, right⟩ := List.forall_mem_append.mp fits
  rw [ofString_of_written written, readIndices_of_fits left, readIndices_of_fits right]
  rfl

theorem ofString_of_not_fits (written : Written input.toList minterms others)
    (listed : minterms ++ others = before ++ digits :: after)
    (fits : ∀ earlier ∈ before, Fits earlier) (large : ¬ Fits digits) :
    ofString input = .error (.termTooLarge (String.ofList digits)) := by
  rw [ofString_of_written written]
  obtain ⟨front, rfl, rfl⟩ | ⟨back, rfl, split⟩ := List.append_eq_append_iff.mp listed
  · obtain ⟨left, right⟩ := List.forall_mem_append.mp fits
    rw [readIndices_of_fits left, readIndices_of_not_fits right large]
    rfl
  · cases back with
    | nil =>
      have fails : readIndices (digits :: after) = .error (.termTooLarge (String.ofList digits)) :=
        @readIndices_of_not_fits digits [] after nofun large
      rw [List.nil_append] at split
      rw [List.append_nil, readIndices_of_fits fits, ← split, fails]
      rfl
    | cons first back =>
      obtain ⟨rfl, rfl⟩ := List.cons.inj split
      rw [readIndices_of_not_fits fits large]
      rfl

theorem refused_ofString (fails : ∀ minterms others, ¬ Written input.toList minterms others) :
    Refused (ofString input) := by
  cases read : Rule.terms input.toList with
  | none =>
    rw [ofString_eq]
    exact (refused_numeralsOf read).bind _
  | some found =>
    obtain ⟨⟨minterms, others⟩, rest⟩ := found
    exact absurd (Rule.terms_eq_some_iff.mp read).1 (fails minterms others)

theorem not_refused_ofString (written : Written input.toList minterms others) :
    ¬ Refused (ofString input) := by
  rintro ⟨column, expected, refused⟩
  obtain fits | ⟨before, digits, after, split, fits, large⟩ := fits_or_exists_first (minterms ++ others)
  · cases (ofString_of_fits written fits).symm.trans refused
  · cases (ofString_of_not_fits written split fits large).symm.trans refused

/-- Just the texts that the grammar describes are read, as parsing expressions read them. The outcome
is the list of what their numerals denote, or names the first numeral that is too large. -/
theorem ofString_reads (input : String) :
    (∀ minterms others rest, Rule.terms input.toList = some ((minterms, others), rest) ↔
      Written input.toList minterms others ∧ rest = []) ∧
    (¬ Refused (ofString input) ↔ ∃ minterms others, Written input.toList minterms others) ∧
    ∀ minterms others, Written input.toList minterms others →
      ((∀ digits ∈ minterms ++ others, Fits digits) →
        ofString input = .ok ⟨.ofList (minterms.map valueOf), .ofList (others.map valueOf)⟩) ∧
      ∀ before digits after, minterms ++ others = before ++ digits :: after →
        (∀ earlier ∈ before, Fits earlier) → ¬ Fits digits →
          ofString input = .error (.termTooLarge (String.ofList digits)) := by
  refine ⟨fun _ _ _ => Rule.terms_eq_some_iff, ⟨?_, ?_⟩, ?_⟩
  · intro accepted
    by_contra fails
    exact accepted (refused_ofString fun minterms others written => fails ⟨minterms, others, written⟩)
  · rintro ⟨minterms, others, written⟩
    exact not_refused_ofString written
  · intro minterms others written
    exact ⟨ofString_of_fits written, fun _ _ _ => ofString_of_not_fits written⟩

/-- Gaps and leading zeros do no harm; of two numerals that are too large the first one is named. -/
theorem ofString_reads_padded :
    Written " 007 ,1+ D( 5)".toList ["007".toList, ['1']] [['5']] ∧
    ofString " 007 ,1+ D( 5)" = .ok ⟨.ofList [7, 1], .ofList [5]⟩ ∧
    Written "1 +d(18446744073709551616 99999999999999999999)".toList [['1']]
      ["18446744073709551616".toList, "99999999999999999999".toList] ∧
    ofString "1 +d(18446744073709551616 99999999999999999999)" =
      .error (.termTooLarge (String.ofList "18446744073709551616".toList)) := by
  obtain ⟨rules, -, outcome⟩ := ofString_reads " 007 ,1+ D( 5)"
  obtain ⟨written, -⟩ := (rules ["007".toList, ['1']] [['5']] []).mp (by decide +kernel)
  obtain ⟨rules, -, fails⟩ := ofString_reads "1 +d(18446744073709551616 99999999999999999999)"
  obtain ⟨large, -⟩ := (rules [['1']] ["18446744073709551616".toList, "99999999999999999999".toList]
    []).mp (by decide +kernel)
  refine ⟨written, ?_, large, ?_⟩
  · exact (outcome _ _ written).1 (by decide +kernel)
  · exact (fails _ _ large).2 [['1']] _ _ rfl (by decide +kernel) (by decide +kernel)

end Switching.TermList
