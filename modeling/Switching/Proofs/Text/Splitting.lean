import Mathlib

/-! # Splitting a text at separators

The pieces of a text, put together, are the text without its separators (`flatten_splitOnP`). Words that
each end with a separator are its pieces again, with an empty one behind the last (`splitOnP_ended`).
-/

namespace Switching.Text

variable {α : Type} {separates : α → Bool}

theorem flatten_splitOnP (separates : α → Bool) (text : List α) :
    (text.splitOnP separates).flatten = text.filter (!separates ·) := by
  induction text with
  | nil => rfl
  | cons c text ih =>
    rw [List.splitOnP_cons_eq_if_modifyHead, List.filter_cons]
    cases separates c with
    | true => exact ih
    | false =>
      obtain ⟨piece, pieces, split⟩ := List.exists_cons_of_ne_nil (List.splitOnP_ne_nil separates text)
      rw [split] at ih ⊢
      exact congrArg (c :: ·) ih

theorem splitOnP_ended {words : List (List α)} {stop : α} (ends : separates stop = true)
    (whole : ∀ word ∈ words, ∀ c ∈ word, separates c = false) :
    (words.flatMap (· ++ [stop])).splitOnP separates = words ++ [[]] := by
  induction words with
  | nil => rfl
  | cons word words ih =>
    obtain ⟨first, rest⟩ := List.forall_mem_cons.mp whole
    rw [List.flatMap_cons, List.append_assoc, List.singleton_append,
      List.splitOnP_append_cons_of_forall_mem first stop ends, ih rest, List.cons_append]

end Switching.Text
