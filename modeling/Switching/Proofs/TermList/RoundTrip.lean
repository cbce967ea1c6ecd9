import Switching.Proofs.TermList.Acceptance

/-! # Reading back the text of a list of terms

The text of a list of terms is one of the texts that the grammar describes, with the indices in decimal
as its numerals (`written_text`), so that reading it gives the list again.
-/

namespace Switching.TermList

theorem isNumeral_toDigits (index : Nat) : IsNumeral (Nat.toDigits 10 index) :=
  ⟨Nat.toDigits_ne_nil, fun _ member => Nat.isDigit_of_mem_toDigits (by decide) (by decide) member⟩

theorem valueOf_toDigits (index : Nat) : valueOf (Nat.toDigits 10 index) = index :=
  Nat.ofDigitChars_ten_toDigits

theorem numerals_intercalate (indices : List Nat) :
    Numerals ([','].intercalate (indices.map (Nat.toDigits 10))) (indices.map (Nat.toDigits 10)) := by
  induction indices with
  | nil => exact .nil
  | cons index indices ih =>
    cases indices with
    | nil =>
      rw [List.map_singleton, List.intercalate_singleton]
      exact .single (isNumeral_toDigits index)
    | cons next indices =>
      have comma : IsSeparation [','] := ⟨nofun, [], [], nofun, nofun, .inr rfl⟩
      rw [List.map_cons, List.map_cons, List.intercalate_cons_cons]
      exact .cons (isNumeral_toDigits index) comma ih

theorem padded_numerals (indices : IndexSet) :
    PaddedNumerals (numerals indices) (indices.toList.map (Nat.toDigits 10)) :=
  ⟨[], numerals indices, [], nofun, numerals_intercalate indices.toList, nofun, by simp⟩

theorem written_text (terms : TermList) :
    Written terms.text.toList (terms.minterms.toList.map (Nat.toDigits 10))
      (terms.dontcares.toList.map (Nat.toDigits 10)) := by
  rw [text, String.toList_ofList]
  split
  · next empty =>
    rw [List.isEmpty_iff.mp empty, List.append_nil]
    exact .minterms (padded_numerals terms.minterms)
  · have mark : IsOpening ['+', 'd', '('] := ⟨[], [], 'd', nofun, nofun, .inl rfl, rfl⟩
    have gaps : IsGaps [] := nofun
    have written := Written.dontcares (padded_numerals terms.minterms) mark
      (padded_numerals terms.dontcares) gaps
    rwa [List.append_assoc, List.append_assoc] at written

theorem ofList_valueOf (indices : IndexSet) :
    IndexSet.ofList ((indices.toList.map (Nat.toDigits 10)).map valueOf) = indices := by
  have values : (indices.toList.map (Nat.toDigits 10)).map valueOf = indices.toList := by
    rw [List.map_map]
    exact (List.map_congr_left fun index _ => valueOf_toDigits index).trans (List.map_id _)
  rw [values, IndexSet.ofList_toList]

/-- Every list of machine words is read back from its text. -/
theorem ofString_text (terms : TermList) (words : ∀ index ∈ terms.indices, index < 2 ^ 64) :
    ofString terms.text = .ok terms := by
  have fits : ∀ digits ∈ terms.minterms.toList.map (Nat.toDigits 10) ++
      terms.dontcares.toList.map (Nat.toDigits 10), Fits digits := by
    rw [← List.map_append]
    intro digits member
    obtain ⟨index, listed, rfl⟩ := List.mem_map.mp member
    rw [Fits, valueOf_toDigits]
    exact words index listed
  rw [ofString_of_fits (written_text terms) fits, ofList_valueOf, ofList_valueOf]

/-- A list with an index that is listed twice and the largest word. -/
theorem ofString_text_overlap :
    ofString "0,10+d(10,18446744073709551615)" =
      .ok ⟨.ofList [10, 0], .ofList [18446744073709551615, 10]⟩ := by
  have written : text ⟨.ofList [10, 0], .ofList [18446744073709551615, 10]⟩ =
    "0,10+d(10,18446744073709551615)" := by decide +kernel
  rw [← written]
  exact ofString_text _ (by decide +kernel)

end Switching.TermList
