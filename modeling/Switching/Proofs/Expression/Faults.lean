import Switching.Proofs.Expression.Names

/-! # Faults of evaluation

Reading checks the parentheses only, so that operators can lack operands in an expression that was
read. As a conjunction stands wherever two operands follow each other, it cannot have too many of
them: its tokens weigh at most 1, and so does what they leave on the stack. Such an expression either
has a value, or misses an operand, or has no tokens at all (`eval_ofInfix_cases`).
-/

namespace Switching.Expression

variable {tokens : List Token} {token : Token} {e : Expression} {env : Assignment}
  {stack next result : List Bool} {fault : Fault}

/-! ## The weight of an expression that was read -/

theorem weight_perm {first second : List Token} (perm : first.Perm second) :
    weight first = weight second := by
  induction perm with
  | nil => rfl
  | cons token _ ih => simp only [weight_cons, ih]
  | swap token other _ =>
    simp only [weight_cons]
    omega
  | trans _ _ before after => exact before.trans after

theorem weight_filter (tokens : List Token) :
    weight (tokens.filter (!isParen ·)) = weight tokens := by
  induction tokens with
  | nil => rfl
  | cons token rest ih =>
    cases paren : isParen token with
    | true =>
      have light : token.weight = 0 := by
        cases token <;> first | rfl | cases paren
      simp [paren, light, ih]
    | false => simp [paren, ih]

/-- Reading changes the weight of tokens only by the conjunctions that are filled in. -/
theorem weight_ofInfix (success : ofInfix tokens = .ok e) :
    weight e.tokens = weight (expand false tokens) := by
  rw [weight_perm (perm_ofInfix success), weight_filter, insertProducts_eq]

/-- At most one value is left by an expression that was read. -/
theorem length_le_one (success : ofInfix tokens = .ok e) (ran : run env e.tokens [] = .ok stack) :
    stack.length ≤ 1 := by
  have height := length_run ran
  have light := weight_expand_le false tokens
  rw [weight_ofInfix success, List.length_nil] at height
  rw [Bool.toNat_false] at light
  omega

/-! ## Failing runs -/

/-- A token leaves at least the value that it pushes. -/
theorem ne_nil_of_step (success : step env stack token = .ok next) : next ≠ [] := by
  rcases step_cases success with ⟨_, _, rfl⟩ | ⟨_, _, _, _, _, rfl⟩ | ⟨_, _, _, _, _, _, rfl⟩
  all_goals exact List.cons_ne_nil _ _

/-- Only a run without tokens can leave nothing. -/
theorem eq_nil_of_run (ran : run env tokens stack = .ok []) : stack = [] ∧ tokens = [] := by
  induction tokens generalizing stack with
  | nil =>
    cases ran
    exact ⟨rfl, rfl⟩
  | cons token rest ih =>
    rw [run_cons] at ran
    obtain ⟨next, first, later⟩ := bind_eq_ok_iff.mp ran
    exact absurd (ih later).1 (ne_nil_of_step first)

/-- A run fails where one of its tokens does. -/
theorem exists_step_of_run (failure : run env tokens stack = .error fault) :
    ∃ token ∈ tokens, ∃ reached, step env reached token = .error fault := by
  induction tokens generalizing stack with
  | nil => cases failure
  | cons token rest ih =>
    rw [run_cons] at failure
    rcases bind_eq_error_iff.mp failure with here | ⟨next, _, later⟩
    · exact ⟨token, List.mem_cons_self, stack, here⟩
    · obtain ⟨other, member, failing⟩ := ih later
      exact ⟨other, List.mem_cons_of_mem _ member, failing⟩

/-- If its variables have values, an expression that was read can fail for a missing operand only. -/
theorem missingOperand_of_run (success : ofInfix tokens = .ok e)
    (assigned : ∀ name ∈ e.vars.names, (env.get? name).isSome = true)
    (failure : run env e.tokens stack = .error fault) : fault = .missingOperand := by
  obtain ⟨token, member, reached, failing⟩ := exists_step_of_run failure
  rcases step_error_cases failing with missing | ⟨name, rfl, absent, _⟩ | ⟨paren, _⟩
  · exact missing
  · have valued := assigned name (mem_vars.mpr member)
    rw [absent] at valued
    cases valued
  · have plain := isParen_of_ofInfix success member
    rcases paren with rfl | rfl <;> cases plain

/-- A run of an expression that was read misses an operand or leaves at most one value. -/
theorem run_ofInfix (success : ofInfix tokens = .ok e)
    (assigned : ∀ name ∈ e.vars.names, (env.get? name).isSome = true) :
    run env e.tokens [] = .error .missingOperand ∨
      ∃ stack, run env e.tokens [] = .ok stack ∧ stack.length ≤ 1 := by
  cases ran : run env e.tokens [] with
  | error fault =>
    obtain rfl := missingOperand_of_run success assigned ran
    exact .inl rfl
  | ok stack => exact .inr ⟨stack, rfl, length_le_one success ran⟩

/-- If its variables have values, an expression that was read has a value, misses an operand, or is no
expression; no variable is undefined and no token unexpected. It is no expression if and only if it has
no tokens. A run that misses no operand never ends with two values or more. -/
theorem eval_ofInfix_cases (success : ofInfix tokens = .ok e)
    (assigned : ∀ name ∈ e.vars.names, (env.get? name).isSome = true) :
    ((∃ value, e.eval env = .ok value) ∨ e.eval env = .error .missingOperand ∨
      e.eval env = .error .notAnExpression) ∧
    (e.eval env = .error .notAnExpression ↔ e.tokens = []) ∧
    (run env e.tokens [] = .error .missingOperand ∨
      ∃ stack, run env e.tokens [] = .ok stack ∧ stack.length ≤ 1) := by
  have nonempty (other : run env e.tokens [] ≠ .ok []) : e.tokens ≠ [] := by
    intro empty
    exact other (by rw [empty]; rfl)
  rcases run_ofInfix success assigned with missing | ⟨stack, ran, low⟩
  · have failure : e.eval env = .error .missingOperand := by
      rw [eval, missing]
      rfl
    refine ⟨.inr (.inl failure), iff_of_false ?_ (nonempty ?_), .inl missing⟩
    · simp [failure]
    · simp [missing]
  · have outcome : e.eval env = result stack := by
      rw [eval, ran]
      rfl
    rcases stack with _ | ⟨value, _ | ⟨other, stack⟩⟩
    · exact ⟨.inr (.inr outcome), iff_of_true outcome (eq_nil_of_run ran).2, .inr ⟨[], ran, low⟩⟩
    · refine ⟨.inl ⟨value, outcome⟩, iff_of_false ?_ (nonempty ?_), .inr ⟨[value], ran, low⟩⟩
      · simp [outcome, result]
      · simp [ran]
    · simp at low

theorem eval_ofInfix_cases_enclosed :
    let tokens : List Token := [.var 'A', .openParen, .operator (.not .before), .closeParen, .var 'B']
    let e : Expression := ⟨[.var 'A', .operator (.not .before), .operator (.binary .and), .var 'B',
      .operator (.binary .and)]⟩
    let env := Assignment.ofPairs [('A', true), ('B', false)]
    ofInfix tokens = .ok e ∧ (∀ name ∈ e.vars.names, (env.get? name).isSome = true) ∧
    e.eval env = .error .missingOperand ∧
    (e.eval env = .error .notAnExpression ↔ e.tokens = []) ∧
    run env e.tokens [] = .error .missingOperand := by
  intro tokens e env
  have success : ofInfix tokens = .ok e := rfl
  have assigned : ∀ name ∈ e.vars.names, (env.get? name).isSome = true := by
    intro name member
    have listed := mem_vars.mp member
    simp only [e, List.mem_cons, reduceCtorEq, Token.var.injEq, List.not_mem_nil, or_false,
      false_or] at listed
    rcases listed with rfl | rfl <;> rfl
  obtain ⟨outcome, empty, stack⟩ := eval_ofInfix_cases success assigned
  -- The connective behind the negation finds one value only, so that neither of the other cases holds.
  refine ⟨success, assigned, ?_, empty, ?_⟩
  · rcases outcome with ⟨value, valued⟩ | missing | nothing
    · cases valued
    · exact missing
    · exact absurd (empty.mp nothing) (List.cons_ne_nil _ _)
  · rcases stack with missing | ⟨left, ended, _⟩
    · exact missing
    · cases ended

end Switching.Expression
