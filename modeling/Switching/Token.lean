/-! # Tokens of Boolean expressions

The lexical elements of an expression over single-letter variables, with the binding rules of its
operators. Negation can be written on either side of its operand, and the two ways are different
tokens. A token is written as one character, its `symbol`.
-/

namespace Switching

/-- The side of its operand on which a negation is written. -/
inductive Side where
  | before
  | after
deriving DecidableEq, Repr

/-- An operation on two truth values. -/
inductive Connective where
  /-- Both operands are true. -/
  | and
  /-- At least one operand is true. -/
  | or
  /-- Exactly one operand is true. -/
  | xor
deriving DecidableEq, Repr

/-- The value of a connective. -/
def Connective.apply : Connective → Bool → Bool → Bool
  | and, a, b => a && b
  | or, a, b => a || b
  | xor, a, b => a ^^ b

/-- An operator of an expression. -/
inductive Operator where
  /-- The operand is false. -/
  | not (side : Side)
  /-- A connective between two operands. -/
  | binary (connective : Connective)
deriving DecidableEq, Repr

/-- The place of an operator relative to its operands. -/
inductive Fixity where
  | before
  | between
  | after
deriving DecidableEq, Repr

/-- The way in which a chain of one operator is grouped. -/
inductive Associativity where
  | left
  | right
deriving DecidableEq, Repr

namespace Operator

/-- The binding strength: a larger number binds more tightly. -/
def precedence : Operator → Nat
  | binary .or => 1
  | binary .xor => 2
  | binary .and => 3
  | not _ => 4

/-- A negation stands beside its operand, a connective between its two. -/
def fixity : Operator → Fixity
  | not .before => .before
  | not .after => .after
  | binary _ => .between

/-- Connectives are grouped from the left. -/
def associativity : Operator → Associativity
  | not _ => .right
  | binary _ => .left

/-- Whether an operator that waits for its right operand is complete when `next` arrives: it binds
more tightly, or equally and the chain is grouped from the left. -/
def yieldsTo (waiting next : Operator) : Bool :=
  decide (next.precedence < waiting.precedence) ||
    (waiting.precedence == next.precedence && next.associativity == .left)

/-- The character that stands for an operator. -/
def symbol : Operator → Char
  | binary .and => '&'
  | binary .or => '|'
  | binary .xor => '^'
  | not .before => '!'
  | not .after => '\''

end Operator

/-- A lexical element of an expression. -/
inductive Token where
  /-- A fixed truth value. -/
  | constant (value : Bool)
  /-- A variable, identified by a character. -/
  | var (name : Char)
  /-- An operator. -/
  | operator (operator : Operator)
  | openParen
  | closeParen
deriving DecidableEq, Repr

namespace Token

/-- Whether a token can be the last one of an operand. -/
def endsOperand : Token → Bool
  | constant _ | var _ | closeParen | operator (.not .after) => true
  | openParen | operator (.not .before) | operator (.binary _) => false

/-- Whether a token can be the first one of an operand. -/
def startsOperand : Token → Bool
  | constant _ | var _ | openParen | operator (.not .before) => true
  | closeParen | operator (.not .after) | operator (.binary _) => false

/-- Whether a token is an operand by itself. -/
def isOperand : Token → Bool
  | constant _ | var _ => true
  | _ => false

/-- The token with a negation in front of its operand where it is one behind it. -/
def withNotBefore (token : Token) : Token :=
  if token = .operator (.not .after) then .operator (.not .before) else token

/-- The variable that a token names, if it is one. -/
def varName? : Token → Option Char
  | var name => some name
  | _ => none

/-- The character that stands for a token. -/
def symbol : Token → Char
  | constant false => '0'
  | constant true => '1'
  | var name => name
  | operator op => op.symbol
  | openParen => '('
  | closeParen => ')'

end Token

end Switching
