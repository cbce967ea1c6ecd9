import Switching.Token

/-! # Faults

The causes for which an operation of this library can fail, each with the data that its message
shows. The wording is in one place, `Fault.message`.
-/

namespace Switching

/-- A part that a list of terms could have continued with. -/
inductive TermPart where
  /-- A whole list of terms. -/
  | terms
  /-- The index of a term. -/
  | value
  /-- The don't-care terms in their parentheses. -/
  | dontcares
  /-- The end of the text. -/
  | ending
deriving DecidableEq, Repr

/-- The cause of a failure. -/
inductive Fault where
  /-- A character has no meaning where it stands. Blanks are not counted in its position. -/
  | unexpectedChar (char : Char) (position : Nat)
  /-- A closing parenthesis closes nothing. -/
  | unmatchedClose
  /-- An opening parenthesis is never closed. -/
  | unclosedParen
  /-- A variable has no value. -/
  | undefinedVariable (name : Char)
  /-- An operator has too few operands. -/
  | missingOperand
  /-- An expression does not come down to one value. -/
  | notAnExpression
  /-- A token cannot stand in an expression in postfix order. -/
  | unexpectedToken (token : Token)
  /-- A list of terms stops making sense at a column, counted from 1; one of the parts was
  expected there. -/
  | malformedTerms (column : Nat) (expected : List TermPart)
  /-- A numeral denotes no machine word. -/
  | termTooLarge (numeral : String)
  /-- More variables than are supported. -/
  | tooManyVariables (count max : Nat)
  /-- A text is not a name. -/
  | invalidName (name : String)
  /-- A name is used twice. -/
  | conflictingName (name : String)
  /-- A text does not describe a cube. -/
  | invalidPattern (pattern : String)
  /-- A function has no cell of this index. -/
  | noSuchCell (index : Nat)
  /-- A Karnaugh map has no such row or column. -/
  | noSuchPosition (row column : Nat)
  /-- There is no Karnaugh map for this number of variables. -/
  | noLayout (count : Nat)
deriving DecidableEq, Repr

namespace Fault

/-- The text that tells a reader what went wrong. -/
def message : Fault → String
  | unexpectedChar char position => s!"Unexpected character '{char}' at position {position}"
  | unmatchedClose => "Unbalanced parentheses: unexpected ')'"
  | unclosedParen => "Unbalanced parentheses: missing ')'"
  | undefinedVariable name => s!"Variable '{name}' is not defined"
  | missingOperand => "Missing operand"
  | notAnExpression => "Not a valid expression"
  | unexpectedToken token => s!"Unexpected token '{token.symbol}' in postfix expression"
  | malformedTerms column _ => s!"Invalid term list: unexpected text at column {column}"
  | termTooLarge numeral => s!"The term '{numeral}' is too large"
  | tooManyVariables count max => s!"{count} variables are used, at most {max} are supported"
  | invalidName name => s!"The name '{name}' is invalid"
  | conflictingName name => s!"The name '{name}' conflicts with an other variable"
  | invalidPattern pattern => s!"Invalid implicant pattern '{pattern}'"
  | noSuchCell index => s!"There is no cell {index}"
  | noSuchPosition row column => s!"There is no cell at row {row}, column {column}"
  | noLayout count => s!"No Karnaugh map for {count} variables"

/-- Outcomes that may be faults can be compared. -/
instance decidableEqOutcome {α : Type} [DecidableEq α] : DecidableEq (Except Fault α)
  | .ok a, .ok b => decidable_of_iff (a = b) ⟨congrArg Except.ok, Except.ok.inj⟩
  | .error a, .error b => decidable_of_iff (a = b) ⟨congrArg Except.error, Except.error.inj⟩
  | .ok _, .error _ => isFalse nofun
  | .error _, .ok _ => isFalse nofun

end Fault

end Switching
