import Switching.Expression
import Switching.Token.Lexer

/-! # Reading expressions

Tokens in the usual order, operators between or beside their operands, are put into postfix order.
First the conjunctions that juxtaposition leaves out are filled in. Then operands are passed on at
once, and an operator is held back until one arrives that binds less tightly, or the parenthesis
around it closes. Only parentheses are checked here: an operator without operands is passed on, and
is refused when the expression is evaluated.
-/

namespace Switching.Expression

/-- Write a conjunction wherever a token that ends an operand is followed by one that starts one. -/
def insertProducts : List Token → List Token
  | first :: second :: rest =>
    if first.endsOperand && second.startsOperand then
      first :: .operator (.binary .and) :: insertProducts (second :: rest)
    else first :: insertProducts (second :: rest)
  | tokens => tokens

/-- The number of neighbours of which the first can end an operand and the second can start one. -/
def junctions (tokens : List Token) : Nat :=
  (tokens.zip tokens.tail).countP fun pair => pair.1.endsOperand && pair.2.startsOperand

/-- What is held back while tokens are put into postfix order. -/
inductive Held where
  /-- A parenthesis that is still open. -/
  | paren
  /-- An operator that waits for its right operand. -/
  | operator (operator : Operator)
deriving DecidableEq, Repr

namespace Held

/-- Whether something held back is to be passed on before `next` is held back. -/
def yieldsTo (next : Operator) : Held → Bool
  | paren => false
  | operator waiting => waiting.yieldsTo next

/-- The operator that is held back, if it is one. -/
def operator? : Held → Option Token
  | paren => none
  | operator op => some (.operator op)

end Held

/-- Put tokens into postfix order. The list `held` starts with what was held back last. -/
def reorder (held : List Held) : List Token → Except Fault (List Token)
  | [] =>
    if .paren ∈ held then .error .unclosedParen
    else .ok (held.filterMap Held.operator?)
  | .openParen :: rest => reorder (.paren :: held) rest
  | .closeParen :: rest =>
    match held.dropWhile (· ≠ .paren) with
    | [] => .error .unmatchedClose
    | _ :: outside =>
      (reorder outside rest).map ((held.takeWhile (· ≠ .paren)).filterMap Held.operator? ++ ·)
  | .operator op :: rest =>
    match op.fixity with
    | .before => reorder (.operator op :: held) rest
    | .after => (reorder held rest).map (.operator op :: ·)
    | .between =>
      (reorder (.operator op :: held.dropWhile (·.yieldsTo op)) rest).map
        ((held.takeWhile (·.yieldsTo op)).filterMap Held.operator? ++ ·)
  | operand :: rest => (reorder held rest).map (operand :: ·)

/-- Some beginning of the tokens closes more parentheses than it opens. -/
def Overclosed (tokens : List Token) : Prop :=
  ∃ before, before <+: tokens ∧ before.count .openParen < before.count .closeParen

/-- The expression that tokens in the usual order denote. -/
def ofInfix (tokens : List Token) : Except Fault Expression :=
  (reorder [] (insertProducts tokens)).map Expression.mk

/-- Read an expression. -/
def parse (text : String) : Except Fault Expression :=
  Token.readAll text >>= ofInfix

end Switching.Expression
