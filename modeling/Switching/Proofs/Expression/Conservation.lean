import Switching.Proofs.Expression.Reordering

/-! # Reading keeps the tokens

Whatever tokens are read as an expression, their constants and variables are passed on in the order in
which they stand, and their operators as often as they are written. Only conjunctions are added, one at
each junction of two operands, and only parentheses are dropped (`ofInfix_conserves`).
-/

namespace Switching.Expression

variable {tokens out : List Token} {held : List Held} {e : Expression}

/-! ## Filling in conjunctions -/

theorem junctions_cons_cons (first second : Token) (rest : List Token) :
    junctions (first :: second :: rest) = junctions (second :: rest) +
      if first.endsOperand && second.startsOperand then 1 else 0 :=
  List.countP_cons

/-- A conjunction is filled in at each junction, and the tokens are kept. -/
theorem perm_insertProducts (tokens : List Token) :
    (insertProducts tokens).Perm
      (List.replicate (junctions tokens) (.operator (.binary .and)) ++ tokens) := by
  fun_induction insertProducts tokens with
  | case1 first second rest joined ih =>
    rw [junctions_cons_cons, if_pos joined, List.replicate_succ]
    have inserted := ((ih.cons _).cons first).trans (.swap (.operator (.binary .and)) first _)
    exact inserted.trans (List.perm_middle.symm.cons _)
  | case2 first second rest apart ih =>
    rw [junctions_cons_cons, if_neg apart]
    exact (ih.cons first).trans List.perm_middle.symm
  | case3 tokens short =>
    match tokens with
    | [] => exact .refl _
    | [_] => exact .refl _
    | first :: second :: rest => exact absurd rfl (short first second rest)

/-- The conjunctions that are filled in are no operands. -/
theorem filter_isOperand_insertProducts (tokens : List Token) :
    (insertProducts tokens).filter Token.isOperand = tokens.filter Token.isOperand := by
  fun_induction insertProducts tokens with
  | case1 first second rest _ ih =>
    have skipped : Token.isOperand (.operator (.binary .and)) = false := rfl
    rw [List.filter_cons, List.filter_cons_of_neg (by simp [skipped]), ih, ← List.filter_cons]
  | case2 first second rest _ ih => rw [List.filter_cons, ih, ← List.filter_cons]
  | case3 => rfl

/-! ## Putting tokens into postfix order -/

/-- Only operators wait to be passed on. -/
theorem filter_isOperand_waitingTokens (held : List Held) :
    (waitingTokens held).filter Token.isOperand = [] := by
  rw [List.filter_eq_nil_iff]
  intro token member
  obtain ⟨first, _, passed⟩ := List.mem_filterMap.mp member
  cases first with
  | paren => cases passed
  | operator op =>
    cases passed
    exact Bool.false_ne_true

/-- Operands are passed on at once, so that they stay in their order. -/
theorem filter_isOperand_reorder (success : reorder held tokens = .ok out) :
    out.filter Token.isOperand = tokens.filter Token.isOperand := by
  fun_induction reorder held tokens generalizing out with
  | case1 held unclosed => cases success
  | case2 held closed =>
    cases success
    exact filter_isOperand_waitingTokens held
  | case3 held rest ih => exact ih success
  | case4 held rest none => cases success
  | case5 held rest first outside found ih =>
    obtain ⟨others, inner, rfl⟩ := map_eq_ok_iff.mp success
    rw [List.filter_append, filter_isOperand_waitingTokens, ih inner]
    rfl
  | case6 held op rest before ih => exact ih success
  | case7 held op rest after ih =>
    obtain ⟨others, inner, rfl⟩ := map_eq_ok_iff.mp success
    rw [List.filter_cons, ih inner]
    rfl
  | case8 held op rest between ih =>
    obtain ⟨others, inner, rfl⟩ := map_eq_ok_iff.mp success
    rw [List.filter_append, filter_isOperand_waitingTokens, ih inner]
    rfl
  | case9 held token rest notOpen notClose notOperator ih =>
    obtain ⟨others, inner, rfl⟩ := map_eq_ok_iff.mp success
    rw [List.filter_cons, List.filter_cons, ih inner]

/-- Operators are passed on as often as they are written, conjunctions once more for each junction. -/
theorem count_operator_ofInfix (success : ofInfix tokens = .ok e) (op : Operator) :
    e.tokens.count (.operator op) = tokens.count (.operator op) +
      if op = .binary .and then junctions tokens else 0 := by
  have listed : isParen (.operator op) = false := rfl
  rw [(perm_ofInfix success).count_eq, List.count_filter (by simp [listed]),
    (perm_insertProducts tokens).count_eq, List.count_append, List.count_replicate, Nat.add_comm]
  simp only [beq_iff_eq, Token.operator.injEq, eq_comm (a := op)]

/-- Whatever tokens were read, with their operators placed well or not: constants and variables are
those that were written, in the same order; each operator occurs as often as it was written, and a
conjunction once more for each two neighbours of which the first ends an operand and the second starts
one; no parenthesis is left. -/
theorem ofInfix_conserves (success : ofInfix tokens = .ok e) :
    e.tokens.filter Token.isOperand = tokens.filter Token.isOperand ∧
    (∀ op : Operator, e.tokens.count (.operator op) = tokens.count (.operator op) +
      if op = .binary .and then junctions tokens else 0) ∧
    .openParen ∉ e.tokens ∧ .closeParen ∉ e.tokens := by
  refine ⟨?_, count_operator_ofInfix success, ?_, ?_⟩
  · obtain ⟨out, reordered, rfl⟩ := map_eq_ok_iff.mp success
    exact (filter_isOperand_reorder reordered).trans (filter_isOperand_insertProducts tokens)
  · exact fun member => Bool.noConfusion (isParen_of_ofInfix success member)
  · exact fun member => Bool.noConfusion (isParen_of_ofInfix success member)

/-- Operators that lack operands are kept as well. -/
theorem ofInfix_conserves_dangling :
    let tokens : List Token := [.operator (.binary .or), .openParen, .constant true, .closeParen,
      .operator (.not .before), .var 'B', .operator (.not .after), .operator (.not .after),
      .openParen, .operator (.binary .and), .closeParen, .var 'A']
    let e : Expression := ⟨[.constant true, .var 'B', .operator (.not .after),
      .operator (.not .after), .operator (.not .before), .operator (.binary .and),
      .operator (.binary .and), .operator (.binary .and), .var 'A', .operator (.binary .and),
      .operator (.binary .or)]⟩
    ofInfix tokens = .ok e ∧
    e.tokens.filter Token.isOperand = tokens.filter Token.isOperand ∧
    (∀ op : Operator, e.tokens.count (.operator op) = tokens.count (.operator op) +
      if op = .binary .and then junctions tokens else 0) ∧
    .openParen ∉ e.tokens ∧ .closeParen ∉ e.tokens := by
  intro tokens e
  have success : ofInfix tokens = .ok e := rfl
  exact ⟨success, ofInfix_conserves success⟩

end Switching.Expression
