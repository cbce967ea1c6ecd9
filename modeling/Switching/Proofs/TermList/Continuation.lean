import Switching.Proofs.TermList.Rule
import Switching.TermList.Report

/-! # Going on with lists of numerals

A list of numerals can be continued with any numeral, which may join the last one, after its last
numeral also with a comma and a numeral, and with don't-care terms.
-/

namespace Switching.TermList

variable {text separation gaps digits first : List Char}
variable {numerals : List (List Char)}

theorem isGaps_nil : IsGaps [] := nofun

theorem IsNumeral.append (numeral : IsNumeral first) (also : IsNumeral digits) :
    IsNumeral (first ++ digits) :=
  ⟨List.append_ne_nil_of_left_ne_nil numeral.1 digits, List.forall_mem_append.mpr ⟨numeral.2, also.2⟩⟩

theorem MoreNumerals.concat (list : MoreNumerals text numerals) (separates : IsSeparation separation)
    (numeral : IsNumeral digits) :
    MoreNumerals (text ++ separation ++ digits) (numerals ++ [digits]) := by
  induction list with
  | nil =>
    have single := MoreNumerals.cons separates numeral .nil
    rwa [List.append_nil] at single
  | @cons front next text rest separatesFront isNumeral _ ih =>
    have whole : front ++ next ++ text ++ separation ++ digits =
        front ++ next ++ (text ++ separation ++ digits) := by
      simp only [List.append_assoc]
    rw [whole]
    exact .cons separatesFront isNumeral ih

/-- A numeral after the last one of a list becomes part of that. -/
theorem Numerals.exists_append (list : Numerals text (first :: numerals)) (numeral : IsNumeral digits) :
    ∃ next others, Numerals (text ++ digits) (next :: others) := by
  induction numerals generalizing text first with
  | nil =>
    cases list with
    | single last => exact ⟨_, _, .single (last.append numeral)⟩
  | cons second numerals ih =>
    cases list with
    | @cons _ separation later _ _ isNumeral separates list =>
      obtain ⟨next, others, longer⟩ := ih list
      have whole : first ++ separation ++ later ++ digits =
          first ++ separation ++ (later ++ digits) := List.append_assoc ..
      rw [whole]
      exact ⟨_, _, .cons isNumeral separates longer⟩

theorem Numerals.concat (list : Numerals text (first :: numerals)) (separates : IsSeparation separation)
    (numeral : IsNumeral digits) :
    Numerals (text ++ separation ++ digits) (first :: (numerals ++ [digits])) := by
  obtain ⟨more, isNumeral, later, rfl⟩ := numerals_cons_iff.mp list
  refine numerals_cons_iff.mpr ⟨_, isNumeral, later.concat separates numeral, ?_⟩
  simp only [List.append_assoc]

namespace PaddedNumerals

theorem exists_append (padding : PaddedNumerals text numerals) (numeral : IsNumeral digits) :
    ∃ longer, PaddedNumerals (text ++ digits) longer := by
  obtain ⟨before, inner, after, left, list, right, rfl⟩ := padding
  cases numerals with
  | nil =>
    obtain rfl := numerals_nil_iff.mp list
    have gaps : IsGaps (before ++ after) := List.forall_mem_append.mpr ⟨left, right⟩
    refine ⟨_, before ++ after, digits, [], gaps, .single numeral, isGaps_nil, ?_⟩
    simp only [List.append_nil]
  | cons first numerals =>
    -- Without gaps in front of it the numeral becomes part of the last one.
    cases after with
    | nil =>
      obtain ⟨next, others, longer⟩ := list.exists_append numeral
      refine ⟨_, before, inner ++ digits, [], left, longer, isGaps_nil, ?_⟩
      simp only [List.append_nil, List.append_assoc]
    | cons c after =>
      have separates : IsSeparation (c :: after) :=
        ⟨List.cons_ne_nil c after, [], c :: after, isGaps_nil, right, .inl rfl⟩
      refine ⟨_, before, _, [], left, list.concat separates numeral, isGaps_nil, ?_⟩
      simp only [List.append_nil, List.append_assoc]

theorem exists_append_comma (padding : PaddedNumerals text numerals) (nonempty : numerals ≠ [])
    (isGaps : IsGaps gaps) (numeral : IsNumeral digits) :
    ∃ longer, PaddedNumerals (text ++ ',' :: gaps ++ digits) longer := by
  obtain ⟨before, inner, after, left, list, right, rfl⟩ := padding
  obtain ⟨first, numerals, rfl⟩ := List.exists_cons_of_ne_nil nonempty
  have separates : IsSeparation (after ++ ',' :: gaps) :=
    ⟨List.append_ne_nil_of_right_ne_nil after (List.cons_ne_nil ',' gaps), after, gaps, right, isGaps,
      .inr rfl⟩
  refine ⟨_, before, _, [], left, list.concat separates numeral, isGaps_nil, ?_⟩
  simp only [List.append_nil, List.append_assoc]

theorem canFollow_dontcares (padding : PaddedNumerals text numerals) : CanFollow text .dontcares := by
  have opening : IsOpening "+d(".toList := ⟨[], [], 'd', isGaps_nil, isGaps_nil, .inl rfl, rfl⟩
  have inner : PaddedNumerals [] [] := ⟨[], [], [], isGaps_nil, .nil, isGaps_nil, rfl⟩
  have written := Written.dontcares padding opening inner isGaps_nil
  rw [List.append_nil, List.append_assoc] at written
  exact ⟨numerals, [], written⟩

end PaddedNumerals

end Switching.TermList
