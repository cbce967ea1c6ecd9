import Switching.Proofs.Expression.Faults
import Switching.Proofs.Expression.Parentheses
import Switching.Proofs.Expression.Postorder
import Switching.Proofs.Formula

/-! # Tokens with a value spell a tree

Tokens that stand where they may, with balanced parentheses, are a phrase of the grammar. They are
read from left to right: the tokens of the innermost open parenthesis either await an operand
(`Awaits`) or end with one (`Holds`), and the tokens before every open parenthesis await one. Since
only such tokens are put into an order that can be evaluated, the expressions with a value are
exactly those of the grammar.
-/

namespace Switching

open Expression

namespace Spells

variable {tokens before : List Token} {f g : Formula}

/-! ## Joining an operand to a phrase -/

/-- What may stand between the operands of a conjunction. -/
def IsJoint (joint : List Token) : Prop :=
  joint = [] ∨ joint = [.operator (.binary .and)]

theorem product_join {joint left right : List Token} (isJoint : IsJoint joint)
    (first : Spells .product left f) (second : Spells .negated right g) :
    Spells .product (left ++ joint ++ right) (.binary .and f g) := by
  rcases isJoint with rfl | rfl
  · simpa using first.juxtapose second
  · simpa using first.and second

theorem parity_join {joint left right : List Token} (isJoint : IsJoint joint)
    (first : Spells .parity left f) (second : Spells .negated right g) :
    ∃ h, Spells .parity (left ++ joint ++ right) h := by
  cases first with
  | product first => exact ⟨_, .product (product_join isJoint first second)⟩
  | xor outer inner =>
    have joined := outer.xor (product_join isJoint inner second)
    simp only [List.append_assoc, List.cons_append] at joined ⊢
    exact ⟨_, joined⟩

/-- An operand can be added to a sum by a conjunction. -/
theorem sum_join {joint left right : List Token} (isJoint : IsJoint joint)
    (first : Spells .sum left f) (second : Spells .negated right g) :
    ∃ h, Spells .sum (left ++ joint ++ right) h := by
  cases first with
  | parity first =>
    obtain ⟨h, joined⟩ := parity_join isJoint first second
    exact ⟨h, .parity joined⟩
  | or outer inner =>
    obtain ⟨h, joined⟩ := parity_join isJoint inner second
    have whole := outer.or joined
    simp only [List.append_assoc, List.cons_append] at whole ⊢
    exact ⟨_, whole⟩

/-- An operand can be added to a sum by any connective. -/
theorem sum_connective (connective : Connective) {left right : List Token}
    (first : Spells .sum left f) (second : Spells .negated right g) :
    ∃ h, Spells .sum (left ++ .operator (.binary connective) :: right) h := by
  cases connective with
  | and => simpa using sum_join (.inr rfl) first second
  | or => exact ⟨_, first.or (.product (.negated second))⟩
  | xor =>
    cases first with
    | parity first => exact ⟨_, .parity (first.xor (.negated second))⟩
    | or outer inner =>
      have whole := outer.or (inner.xor (.negated second))
      simp only [List.append_assoc, List.cons_append] at whole ⊢
      exact ⟨_, whole⟩

/-! ## Phrases that are not complete -/

/-- With an operand behind them, the tokens are a sum. -/
def Awaits (before : List Token) : Prop :=
  ∀ tokens f, Spells .negated tokens f → ∃ g, Spells .sum (before ++ tokens) g

/-- The tokens end with an operand, which may still be negated. -/
def Holds (tokens : List Token) : Prop :=
  ∃ before operand f, tokens = before ++ operand ∧ Awaits before ∧ Spells .marked operand f

/-- The tokens of an open parenthesis: they hold an operand if one has just ended, and await one
otherwise. -/
def Fits (ended : Bool) (tokens : List Token) : Prop :=
  if ended then Holds tokens else Awaits tokens

theorem awaits_nil : Awaits [] := fun _ _ spells =>
  ⟨_, .parity (.product (.negated spells))⟩

theorem Awaits.not (awaits : Awaits before) : Awaits (before ++ [.operator (.not .before)]) := by
  intro tokens f spells
  simpa using awaits _ _ spells.notBefore

theorem Awaits.holds (awaits : Awaits before) (spells : Spells .primary tokens f) :
    Holds (before ++ tokens) :=
  ⟨before, tokens, f, rfl, awaits, .primary spells⟩

theorem Holds.exists_sum (holds : Holds tokens) : ∃ f, Spells .sum tokens f := by
  obtain ⟨before, operand, f, rfl, awaits, spells⟩ := holds
  exact awaits _ _ (.marked spells)

theorem Holds.not (holds : Holds tokens) : Holds (tokens ++ [.operator (.not .after)]) := by
  obtain ⟨before, operand, f, rfl, awaits, spells⟩ := holds
  exact ⟨before, _, _, List.append_assoc .., awaits, spells.notAfter⟩

/-- By juxtaposition, tokens that end with an operand await another one. -/
theorem Holds.awaits (holds : Holds tokens) : Awaits tokens := by
  intro next g spells
  obtain ⟨f, sum⟩ := holds.exists_sum
  simpa using sum_join (.inl rfl) sum spells

theorem Holds.connective (holds : Holds tokens) (connective : Connective) :
    Awaits (tokens ++ [.operator (.binary connective)]) := by
  intro next g spells
  obtain ⟨f, sum⟩ := holds.exists_sum
  simpa using sum_connective connective sum spells

theorem Fits.awaits {ended : Bool} (fits : Fits ended tokens) : Awaits tokens := by
  cases ended with
  | true => exact Holds.awaits fits
  | false => exact fits

theorem Fits.operator {ended : Bool} (fits : Fits ended tokens) (op : Operator)
    (start : ended = true ∨ (Token.operator op).startsOperand = true) :
    Fits (Token.operator op).endsOperand (tokens ++ [.operator op]) := by
  rcases op with (_ | _) | connective
  · exact fits.awaits.not
  · obtain rfl : ended = true := start.resolve_right (by simp [Token.startsOperand])
    exact Holds.not fits
  · obtain rfl : ended = true := start.resolve_right (by simp [Token.startsOperand])
    exact Holds.connective fits connective

/-! ## Reading from left to right -/

/-- The tokens before each open parenthesis, the innermost one first, with those behind the innermost
one. -/
def enclose : List (List Token) → List Token → List Token
  | [], inner => inner
  | before :: outer, inner => enclose outer (before ++ .openParen :: inner)

theorem enclose_append (frames : List (List Token)) (inner rest : List Token) :
    enclose frames (inner ++ rest) = enclose frames inner ++ rest := by
  induction frames generalizing inner with
  | nil => rfl
  | cons before outer ih =>
    rw [enclose, enclose, ← ih]
    simp

/-- Well placed tokens that close all open parentheses complete a sum. -/
theorem exists_sum_of_wellPlaced {frames : List (List Token)} {ended : Bool}
    {inner rest : List Token} (fits : Fits ended inner) (outside : ∀ frame ∈ frames, Awaits frame)
    (placed : WellPlaced ended rest) (closed : openAfter? frames.length rest = some 0) :
    ∃ f, Spells .sum (enclose frames inner ++ rest) f := by
  induction rest generalizing frames ended inner with
  | nil =>
    obtain rfl : ended = true := placed
    obtain rfl := List.eq_nil_of_length_eq_zero (Option.some.inj closed)
    simpa [enclose] using Holds.exists_sum fits
  | cons token rest ih =>
    obtain ⟨start, placed⟩ := placed
    have awaits := fits.awaits
    -- The token joins the innermost tokens, unless it is a parenthesis.
    have join (shown : Fits token.endsOperand (inner ++ [token]))
        (depth : openAfter? frames.length rest = some 0) :
        ∃ f, Spells .sum (enclose frames inner ++ token :: rest) f := by
      have whole := ih shown outside placed depth
      rwa [enclose_append, List.append_assoc] at whole
    cases token with
    | constant value => exact join (awaits.holds (.constant value)) closed
    | var name => exact join (awaits.holds (.var name)) closed
    | operator op => exact join (fits.operator op start) closed
    | openParen =>
      have deeper : ∀ frame ∈ inner :: frames, Awaits frame := by
        rintro frame (_ | ⟨_, member⟩)
        · exact awaits
        · exact outside frame member
      have fresh : Fits false [] := awaits_nil
      have whole := ih fresh deeper placed closed
      rwa [enclose, enclose_append, List.append_assoc] at whole
    | closeParen =>
      obtain rfl : ended = true := start.resolve_right (by simp [Token.startsOperand])
      cases frames with
      | nil => cases closed
      | cons before outer =>
        obtain ⟨f, sum⟩ := Holds.exists_sum fits
        have holds : Fits true (before ++ (.openParen :: inner ++ [.closeParen])) :=
          (outside before (List.mem_cons_self ..)).holds (.paren sum)
        have whole := ih holds
          (fun frame member => outside frame (List.mem_cons_of_mem _ member)) placed closed
        rw [← List.append_assoc, enclose_append, List.append_assoc] at whole
        exact whole

end Spells

/-! ## The expressions with a value -/

namespace Expression

/-- Tokens spell a tree if they can be put into an order that has a value. -/
theorem exists_spells_of_eval {tokens : List Token} {e : Expression} {env : Assignment} {value : Bool}
    (success : ofInfix tokens = .ok e) (valued : e.eval env = .ok value) :
    ∃ f, Spells .sum tokens f := by
  have full : weight (expand false tokens) = 1 - (false).toNat :=
    (weight_ofInfix success).symm.trans (weight_of_eval valued)
  have fresh : Spells.Fits false [] := Spells.awaits_nil
  have outside : ∀ frame ∈ [], Spells.Awaits frame := fun _ member => absurd member List.not_mem_nil
  exact Spells.exists_sum_of_wellPlaced fresh outside (wellPlaced_of_weight full)
    (openAfter?_of_ofInfix success)

/-- Reading tokens and evaluating the result succeeds exactly on the phrases of the grammar. The
expression that is read is the only syntax tree of the phrase in postorder, and its value is that of
the tree. -/
theorem ofInfix_eval_iff_spells (tokens : List Token) (env : Assignment)
    (assigned : ∀ name, .var name ∈ tokens → (env.get? name).isSome = true) :
    ((∃ e value, ofInfix tokens = .ok e ∧ e.eval env = .ok value) ↔ ∃ f, Spells .sum tokens f) ∧
    ∀ f, Spells .sum tokens f →
      (∀ g, Spells .sum tokens g → g = f) ∧ ofInfix tokens = .ok ⟨f.postorder⟩ ∧
      ∃ value, f.eval? env = some value ∧ (Expression.mk f.postorder).eval env = .ok value := by
  have valued (f : Formula) (spells : Spells .sum tokens f) : ∃ value, f.eval? env = some value :=
    Formula.exists_value fun name member =>
      assigned name (Formula.mem_of_mem_varNames spells member)
  refine ⟨⟨?_, ?_⟩, fun f spells => ⟨fun g other => ?_, spells.ofInfix_eq, ?_⟩⟩
  · rintro ⟨e, value, success, valued⟩
    exact exists_spells_of_eval success valued
  · rintro ⟨f, spells⟩
    obtain ⟨value, valued⟩ := valued f spells
    exact ⟨_, value, spells.ofInfix_eq, Formula.eval_postorder valued⟩
  · have same := other.ofInfix_eq.symm.trans spells.ofInfix_eq
    exact Formula.postorder_injective (congrArg Expression.tokens (Except.ok.inj same))
  · obtain ⟨value, valued⟩ := valued f spells
    exact ⟨value, valued, Formula.eval_postorder valued⟩

theorem ofInfix_eval_iff_spells_nested :
    let tokens : List Token := [.operator (.not .before), .var 'A', .var 'B',
      .operator (.not .after), .operator (.binary .xor), .openParen, .constant false,
      .operator (.binary .or), .var 'C', .closeParen]
    let env := Assignment.ofPairs [('A', true), ('B', false), ('C', true)]
    (∀ name, .var name ∈ tokens → (env.get? name).isSome = true) ∧
    ((∃ e value, ofInfix tokens = .ok e ∧ e.eval env = .ok value) ↔ ∃ f, Spells .sum tokens f) ∧
    ∀ f, Spells .sum tokens f →
      (∀ g, Spells .sum tokens g → g = f) ∧ ofInfix tokens = .ok ⟨f.postorder⟩ ∧
      ∃ value, f.eval? env = some value ∧ (Expression.mk f.postorder).eval env = .ok value := by
  intro tokens env
  have assigned : ∀ name, .var name ∈ tokens → (env.get? name).isSome = true := by
    intro name member
    simp only [tokens, List.mem_cons, reduceCtorEq, Token.var.injEq, List.not_mem_nil, or_false,
      false_or] at member
    rcases member with rfl | rfl | rfl <;> rfl
  exact ⟨assigned, ofInfix_eval_iff_spells tokens env assigned⟩

end Expression

end Switching
