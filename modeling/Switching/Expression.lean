import Switching.Assignment
import Switching.IndexSet
import Switching.Token

/-! # Expressions in postfix order

An expression is a sequence of tokens in which every operator follows its operands. Whether the
sequence makes sense is found out by `eval`, a stack machine that pushes the operands and lets every
operator take its own from the top of the stack.
-/

namespace Switching

/-- A sequence of tokens to be read in postfix order. -/
structure Expression where
  /-- The tokens in the order of evaluation. -/
  tokens : List Token
deriving DecidableEq, Repr

namespace Expression

/-- Evaluate one token. The first element of the stack is its top, so that the right operand of a
connective comes first. -/
def step (env : Assignment) (stack : List Bool) : Token → Except Fault (List Bool)
  | .constant value => .ok (value :: stack)
  | .var name =>
    match env.get? name with
    | some value => .ok (value :: stack)
    | none => .error (.undefinedVariable name)
  | .operator (.not _) =>
    match stack with
    | a :: rest => .ok ((!a) :: rest)
    | _ => .error .missingOperand
  | .operator (.binary connective) =>
    match stack with
    | b :: a :: rest => .ok (connective.apply a b :: rest)
    | _ => .error .missingOperand
  | token => .error (.unexpectedToken token)

/-- The stack after a sequence of tokens. -/
def run (env : Assignment) (tokens : List Token) (stack : List Bool) : Except Fault (List Bool) :=
  tokens.foldlM (step env) stack

/-- The one value that is left on the stack in the end. -/
def result : List Bool → Except Fault Bool
  | [value] => .ok value
  | _ => .error .notAnExpression

/-- The value of an expression. -/
def eval (e : Expression) (env : Assignment) : Except Fault Bool :=
  run env e.tokens [] >>= result

/-- The distinct characters of a list, in the order of their code points. -/
def sortedNames (names : List Char) : List Char :=
  (IndexSet.ofList (names.map Char.toNat)).toList.map Char.ofNat

/-- The variables of an expression, each once, in the order of their code points. -/
def vars (e : Expression) : Variables :=
  ⟨sortedNames (e.tokens.filterMap Token.varName?)⟩

/-- The tokens separated by blanks. -/
def text (e : Expression) : String :=
  String.ofList ((e.tokens.map Token.symbol).intersperse ' ')

/-- What a token can do to the stack: an operand is pushed, an operator replaces its own operands. -/
theorem step_cases {env : Assignment} {token : Token} {stack next : List Bool}
    (success : step env stack token = .ok next) :
    (∃ value, (token = .constant value ∨ ∃ name, token = .var name ∧ env.get? name = some value) ∧
      next = value :: stack) ∨
    (∃ side a rest, token = .operator (.not side) ∧ stack = a :: rest ∧ next = (!a) :: rest) ∨
    ∃ connective a b rest, token = .operator (.binary connective) ∧ stack = b :: a :: rest ∧
      next = connective.apply a b :: rest := by
  match token, stack with
  | .constant value, _ =>
    cases success
    exact .inl ⟨value, .inl rfl, rfl⟩
  | .var name, stack =>
    simp only [step] at success
    split at success
    · next value found =>
      cases success
      exact .inl ⟨value, .inr ⟨name, rfl, found⟩, rfl⟩
    · cases success
  | .operator (.not side), a :: rest =>
    cases success
    exact .inr (.inl ⟨side, a, rest, rfl, rfl, rfl⟩)
  | .operator (.not _), [] => cases success
  | .operator (.binary connective), b :: a :: rest =>
    cases success
    exact .inr (.inr ⟨connective, a, b, rest, rfl, rfl, rfl⟩)
  | .operator (.binary _), [] => cases success
  | .operator (.binary _), [_] => cases success
  | .openParen, _ => cases success
  | .closeParen, _ => cases success

/-- What a token can fail for. -/
theorem step_error_cases {env : Assignment} {token : Token} {stack : List Bool} {fault : Fault}
    (failure : step env stack token = .error fault) :
    fault = .missingOperand ∨
    (∃ name, token = .var name ∧ env.get? name = none ∧ fault = .undefinedVariable name) ∨
    (token = .openParen ∨ token = .closeParen) ∧ fault = .unexpectedToken token := by
  match token, stack with
  | .constant _, _ => cases failure
  | .var name, stack =>
    simp only [step] at failure
    split at failure
    · cases failure
    · next absent =>
      cases failure
      exact .inr (.inl ⟨name, rfl, absent, rfl⟩)
  | .operator (.not _), _ :: _ => cases failure
  | .operator (.not _), [] =>
    cases failure
    exact .inl rfl
  | .operator (.binary _), _ :: _ :: _ => cases failure
  | .operator (.binary _), [] =>
    cases failure
    exact .inl rfl
  | .operator (.binary _), [_] =>
    cases failure
    exact .inl rfl
  | .openParen, _ =>
    cases failure
    exact .inr (.inr ⟨.inl rfl, rfl⟩)
  | .closeParen, _ =>
    cases failure
    exact .inr (.inr ⟨.inr rfl, rfl⟩)

theorem run_cons (env : Assignment) (token : Token) (rest : List Token) (stack : List Bool) :
    run env (token :: rest) stack = step env stack token >>= run env rest := by
  rw [run, List.foldlM_cons]
  rfl

theorem run_append (env : Assignment) (first second : List Token) (stack : List Bool) :
    run env (first ++ second) stack = run env first stack >>= run env second := by
  simp only [run, List.foldlM_append]
  rfl

theorem result_eq_ok_iff {stack : List Bool} {value : Bool} :
    result stack = .ok value ↔ stack = [value] := by
  match stack with
  | [] => simp [result]
  | [_] => simp [result]
  | _ :: _ :: _ => simp [result]

/-- An expression has a value if that is all that its tokens leave on the stack. -/
theorem eval_eq_ok_iff {e : Expression} {env : Assignment} {value : Bool} :
    e.eval env = .ok value ↔ run env e.tokens [] = .ok [value] := by
  rw [eval]
  cases run env e.tokens [] with
  | error fault => simp [bind, Except.bind]
  | ok stack => simpa [bind, Except.bind] using result_eq_ok_iff

theorem mem_sortedNames {c : Char} {names : List Char} : c ∈ sortedNames names ↔ c ∈ names := by
  simp only [sortedNames, List.mem_map, IndexSet.mem_toList, IndexSet.mem_ofList]
  constructor
  · rintro ⟨_, ⟨name, member, rfl⟩, rfl⟩
    simpa using member
  · intro member
    exact ⟨c.toNat, ⟨c, member, rfl⟩, Char.ofNat_toNat c⟩

end Expression

end Switching
