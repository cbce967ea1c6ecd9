import Mathlib
import Switching.Expression.Parser
import Switching.Proofs.Outcome

/-! # Filling in conjunctions

Filling in the conjunctions that juxtaposition leaves out is a pass from left to right that remembers
whether an operand has just ended (`expand`). The pass keeps a balance: counting operands against
connectives, the tokens that it writes weigh at most 1, and exactly 1 only if every token stands where
it may (`WellPlaced`). Evaluation in turn adds the weight of its tokens to the height of the stack, so
that only well placed tokens have a value.
-/

namespace Switching

/-- What a token adds to the number of values that are waiting for an operator. -/
def Token.weight : Token → Int
  | constant _ | var _ => 1
  | operator (.binary _) => -1
  | _ => 0

/-- A token adds a value if it both starts and ends an operand, and takes one if it does neither. -/
theorem Token.weight_eq (token : Token) :
    token.weight = token.startsOperand.toNat + token.endsOperand.toNat - 1 := by
  match token with
  | constant _ => rfl
  | var _ => rfl
  | openParen => rfl
  | closeParen => rfl
  | operator (.binary _) => rfl
  | operator (.not .before) => rfl
  | operator (.not .after) => rfl

namespace Expression

/-- What some tokens add to the number of values. -/
def weight (tokens : List Token) : Int :=
  (tokens.map Token.weight).sum

@[simp] theorem weight_nil : weight [] = 0 := rfl

@[simp] theorem weight_cons (token : Token) (tokens : List Token) :
    weight (token :: tokens) = token.weight + weight tokens := by
  simp [weight]

@[simp] theorem weight_append (first second : List Token) :
    weight (first ++ second) = weight first + weight second := by
  simp [weight]

/-- A conjunction, if an operand has ended and `next` starts another one. -/
def link (ended : Bool) (next : Token) : List Token :=
  if ended && next.startsOperand then [.operator (.binary .and)] else []

/-- Fill in conjunctions, `ended` telling whether an operand has just ended. -/
def expand (ended : Bool) : List Token → List Token
  | [] => []
  | token :: rest => link ended token ++ token :: expand token.endsOperand rest

theorem insertProducts_cons (token : Token) (rest : List Token) :
    insertProducts (token :: rest) = token :: expand token.endsOperand rest := by
  induction rest generalizing token with
  | nil => rfl
  | cons next rest ih =>
    rw [insertProducts, ih next, expand, link]
    split <;> rfl

theorem insertProducts_eq (tokens : List Token) : insertProducts tokens = expand false tokens := by
  cases tokens with
  | nil => rfl
  | cons token rest => exact insertProducts_cons token rest

/-- Whether an operand has ended after some tokens. -/
def endedAfter (ended : Bool) (tokens : List Token) : Bool :=
  tokens.foldl (fun _ token => token.endsOperand) ended

theorem expand_append (ended : Bool) (first second : List Token) :
    expand ended (first ++ second) =
      expand ended first ++ expand (endedAfter ended first) second := by
  induction first generalizing ended with
  | nil => rfl
  | cons token rest ih => simp [expand, endedAfter, ih]

theorem endedAfter_append (ended : Bool) (first second : List Token) :
    endedAfter ended (first ++ second) = endedAfter (endedAfter ended first) second := by
  simp [endedAfter]

/-- Every token that does not start an operand follows the end of one, and so does the end of the
tokens. -/
def WellPlaced (ended : Bool) : List Token → Prop
  | [] => ended = true
  | token :: rest => (ended = true ∨ token.startsOperand = true) ∧ WellPlaced token.endsOperand rest

theorem weight_expand_le (ended : Bool) (tokens : List Token) :
    weight (expand ended tokens) ≤ 1 - ended.toNat := by
  induction tokens generalizing ended with
  | nil => cases ended <;> simp [expand]
  | cons token rest ih =>
    have rest_le := ih token.endsOperand
    simp only [expand, weight_append, weight_cons, Token.weight_eq, link]
    cases ended <;> cases token.startsOperand <;>
      simp [Token.weight] <;> omega

/-- Only well placed tokens have the largest possible weight. -/
theorem wellPlaced_of_weight {ended : Bool} {tokens : List Token}
    (full : weight (expand ended tokens) = 1 - ended.toNat) : WellPlaced ended tokens := by
  induction tokens generalizing ended with
  | nil =>
    cases ended with
    | true => rfl
    | false => simp [expand] at full
  | cons token rest ih =>
    have rest_le := weight_expand_le token.endsOperand rest
    simp only [expand, weight_append, weight_cons, Token.weight_eq, link] at full
    cases started : token.startsOperand with
    | true =>
      refine ⟨.inr started, ih ?_⟩
      cases ended <;> simp [started, Token.weight] at full <;> omega
    | false =>
      cases ended with
      | true => exact ⟨.inl rfl, ih (by simp [started] at full; omega)⟩
      | false =>
        simp [started] at full
        omega

theorem length_step {env : Assignment} {token : Token} {stack next : List Bool}
    (success : step env stack token = .ok next) :
    (next.length : Int) = stack.length + token.weight := by
  rcases step_cases success with ⟨value, rfl | ⟨name, rfl, _⟩, rfl⟩ |
    ⟨side, a, rest, rfl, rfl, rfl⟩ | ⟨connective, a, b, rest, rfl, rfl, rfl⟩
  · rfl
  · rfl
  · simp [Token.weight]
  · simp only [List.length_cons, Token.weight]
    omega

/-- A successful run changes the height of the stack by the weight of its tokens. -/
theorem length_run {env : Assignment} {tokens : List Token} {stack result : List Bool}
    (success : run env tokens stack = .ok result) :
    (result.length : Int) = stack.length + weight tokens := by
  induction tokens generalizing stack with
  | nil =>
    cases success
    simp
  | cons token rest ih =>
    rw [run_cons] at success
    obtain ⟨next, first, later⟩ := bind_eq_ok_iff.mp success
    rw [ih later, length_step first, weight_cons]
    omega

/-- An expression with a value weighs as much as one operand. -/
theorem weight_of_eval {e : Expression} {env : Assignment} {value : Bool}
    (success : e.eval env = .ok value) : weight e.tokens = 1 := by
  have height := length_run (eval_eq_ok_iff.mp success)
  simp only [List.length_singleton, List.length_nil] at height
  omega

end Expression

end Switching
