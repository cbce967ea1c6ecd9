import Switching.Proofs.Expression.Expansion
import Switching.Proofs.Expression.Reordering

/-! # Faults of parentheses

Whether tokens in the usual order can be read depends on their parentheses alone, and these are
counted: a closing one that nothing opened is found first, wherever it stands, and an opening one that
nothing closes is found at the end (`ofInfix_paren_faults`).
-/

namespace Switching.Expression

variable {tokens : List Token} {depth left : Nat}

/-! ## Counting open parentheses -/

theorem exists_prefix_cons_iff {α : Type} {property : List α → Prop} {first : α} {rest : List α}
    (empty : ¬ property []) :
    (∃ before, before <+: first :: rest ∧ property before) ↔
      ∃ before, before <+: rest ∧ property (first :: before) := by
  constructor
  · rintro ⟨before, start, holds⟩
    rcases List.prefix_cons_iff.mp start with rfl | ⟨others, rfl, startOfRest⟩
    · exact absurd holds empty
    · exact ⟨others, startOfRest, holds⟩
  · rintro ⟨others, start, holds⟩
    exact ⟨first :: others, List.prefix_cons_iff.mpr (.inr ⟨others, rfl, start⟩), holds⟩

/-- The count fails where more parentheses have been closed than opened. -/
theorem openAfter?_eq_none_iff : openAfter? depth tokens = none ↔
    ∃ before, before <+: tokens ∧ depth + before.count .openParen < before.count .closeParen := by
  induction tokens generalizing depth with
  | nil => simp [openAfter?]
  | cons token rest ih =>
    rw [exists_prefix_cons_iff (by simp)]
    cases token with
    | openParen =>
      rw [openAfter?, ih]
      refine exists_congr fun before => and_congr_right fun _ => ?_
      rw [List.count_cons_self, List.count_cons_of_ne (by simp)]
      omega
    | closeParen =>
      cases depth with
      | zero => exact iff_of_true rfl ⟨[], List.nil_prefix, by simp⟩
      | succ depth =>
        rw [openAfter?, ih]
        refine exists_congr fun before => and_congr_right fun _ => ?_
        rw [List.count_cons_self, List.count_cons_of_ne (by simp)]
        omega
    | _ => simp [openAfter?, ih]

/-- Unless the count fails, it is the difference of what was opened and what was closed. -/
theorem count_of_openAfter? (counted : openAfter? depth tokens = some left) :
    left + tokens.count .closeParen = depth + tokens.count .openParen := by
  induction tokens generalizing depth with
  | nil =>
    obtain rfl := Option.some.inj counted
    rfl
  | cons token rest ih =>
    cases token with
    | openParen =>
      rw [List.count_cons_self, List.count_cons_of_ne (by simp), ih counted]
      omega
    | closeParen =>
      cases depth with
      | zero => cases counted
      | succ depth =>
        rw [List.count_cons_self, List.count_cons_of_ne (by simp), ← Nat.add_assoc, ih counted]
        omega
    | _ => simpa using ih counted

theorem openAfter?_zero_eq_none_iff : openAfter? 0 tokens = none ↔ Overclosed tokens := by
  rw [openAfter?_eq_none_iff, Overclosed]
  simp only [Nat.zero_add]

theorem openAfter?_zero_eq_some_iff : openAfter? 0 tokens = some left ↔
    ¬ Overclosed tokens ∧ left + tokens.count .closeParen = tokens.count .openParen := by
  rw [← openAfter?_zero_eq_none_iff]
  cases counted : openAfter? 0 tokens with
  | none => simp
  | some other =>
    have total := count_of_openAfter? counted
    rw [Nat.zero_add] at total
    rw [← total, Nat.add_right_cancel_iff, Option.some.injEq, eq_comm (a := other)]
    simp

/-! ## Reading tokens -/

/-- The conjunctions that are filled in open and close nothing. -/
theorem openAfter?_expand (depth : Nat) (ended : Bool) (tokens : List Token) :
    openAfter? depth (expand ended tokens) = openAfter? depth tokens := by
  induction tokens generalizing depth ended with
  | nil => rfl
  | cons token rest ih =>
    have linked (others : List Token) :
        openAfter? depth (link ended token ++ others) = openAfter? depth others := by
      rw [link]
      split <;> rfl
    rw [expand, linked]
    cases token with
    | closeParen => cases depth <;> simp [openAfter?, ih]
    | _ => simp [openAfter?, ih]

/-- The count of the parentheses settles whether tokens can be read. -/
theorem settles_ofInfix (tokens : List Token) :
    Settles ((ofInfix tokens).map Expression.tokens) (openAfter? 0 tokens) := by
  have settles := settles_reorder [] (insertProducts tokens)
  rw [List.count_nil, insertProducts_eq, openAfter?_expand] at settles
  rw [ofInfix, map_map, insertProducts_eq]
  exact settles.map _

/-- The parentheses of tokens that were read match. -/
theorem openAfter?_of_ofInfix {e : Expression} (success : ofInfix tokens = .ok e) :
    openAfter? 0 tokens = some 0 := by
  have settles := settles_ofInfix tokens
  rw [success] at settles
  rcases counted : openAfter? 0 tokens with _ | _ | left
  · rw [counted] at settles
    cases settles
  · rfl
  · rw [counted] at settles
    cases settles

theorem ofInfix_of_overclosed (overclosed : Overclosed tokens) :
    ofInfix tokens = .error .unmatchedClose := by
  have settles := settles_ofInfix tokens
  rw [openAfter?_zero_eq_none_iff.mpr overclosed] at settles
  exact map_eq_error_iff.mp settles

theorem ofInfix_of_unclosed (closable : ¬ Overclosed tokens)
    (unclosed : tokens.count .closeParen < tokens.count .openParen) :
    ofInfix tokens = .error .unclosedParen := by
  obtain ⟨left, total⟩ := Nat.exists_eq_add_of_lt unclosed
  have counted : openAfter? 0 tokens = some (left + 1) :=
    openAfter?_zero_eq_some_iff.mpr ⟨closable, by omega⟩
  have settles := settles_ofInfix tokens
  rw [counted] at settles
  exact map_eq_error_iff.mp settles

theorem exists_ofInfix (closable : ¬ Overclosed tokens)
    (closed : tokens.count .openParen ≤ tokens.count .closeParen) :
    ∃ e, ofInfix tokens = .ok e := by
  -- All tokens together are a beginning of themselves, so that no more are closed than opened.
  have balanced : tokens.count .closeParen = tokens.count .openParen :=
    Nat.le_antisymm (Nat.le_of_not_lt fun more => closable ⟨tokens, List.prefix_rfl, more⟩) closed
  have settles := settles_ofInfix tokens
  rw [openAfter?_zero_eq_some_iff.mpr ⟨closable, (Nat.zero_add _).trans balanced⟩] at settles
  obtain ⟨out, success⟩ := settles
  obtain ⟨e, read, _⟩ := map_eq_ok_iff.mp success
  exact ⟨e, read⟩

/-- The faults of reading tokens. If some beginning of the tokens closes more parentheses than it
opens, then a parenthesis closes nothing; otherwise, if all tokens together open more than they close,
then one is never closed; otherwise the tokens are read, whatever stands between the parentheses. -/
theorem ofInfix_paren_faults (tokens : List Token) :
    (ofInfix tokens = .error .unmatchedClose ↔ Overclosed tokens) ∧
    (ofInfix tokens = .error .unclosedParen ↔
      ¬ Overclosed tokens ∧ tokens.count .closeParen < tokens.count .openParen) ∧
    ((∃ e, ofInfix tokens = .ok e) ↔
      ¬ Overclosed tokens ∧ tokens.count .openParen ≤ tokens.count .closeParen) := by
  by_cases overclosed : Overclosed tokens
  · have fault := ofInfix_of_overclosed overclosed
    simp [fault, overclosed]
  · by_cases unclosed : tokens.count .closeParen < tokens.count .openParen
    · have fault := ofInfix_of_unclosed overclosed unclosed
      simp [fault, overclosed, unclosed]
    · obtain ⟨e, read⟩ := exists_ofInfix overclosed (Nat.le_of_not_lt unclosed)
      simp [read, overclosed, Nat.le_of_not_lt unclosed]

end Switching.Expression
