import Switching.Cube
import Switching.Form
import Switching.Variables

/-! # Writing two-level forms

A list of cubes is written in two steps. `Form.pieces` lists what is to be written, literal by
literal and term by term; a `Style` then says how each piece looks. In a sum of products a cube is
the conjunction of its fixed values, in a product of sums it is the disjunction of their opposites.
-/

namespace Switching

/-- A part of a written form. -/
inductive Piece where
  /-- A fixed truth value, in place of a term or of the whole form. -/
  | constant (value : Bool)
  /-- A variable, which can be complemented. -/
  | literal (name : Char) (complemented : Bool)
  /-- The beginning of a term. -/
  | openTerm
  /-- What stands between two literals of a term. -/
  | nextLiteral
  /-- The end of a term. -/
  | closeTerm
  /-- What stands between two terms. -/
  | nextTerm
deriving DecidableEq, Repr

namespace Form

/-- Whether the literal of a fixed value is complemented. -/
def complements : Form → Bool → Bool
  | sop, value => !value
  | pos, value => value

/-- The literal of a fixed position. A position without a variable is written as a question mark. -/
def literal (form : Form) (vars : Variables) (entry : Nat × Bool) : Piece :=
  .literal (vars.names[entry.1]?.getD '?') (form.complements entry.2)

/-- The term of a cube: its literals, or the constant 1 if no position is fixed. -/
def term (form : Form) (vars : Variables) (c : Cube) : List Piece :=
  if c.pattern.dashes = c.width then [.constant true]
  else
    .openTerm :: (c.pattern.fixed.map (form.literal vars)).intersperse .nextLiteral ++ [.closeTerm]

/-- The value of the term of a cube at an index. -/
def termValue (form : Form) (c : Cube) (index : Nat) : Bool :=
  match form with
  | sop => c.pattern.agrees index
  | pos => c.pattern.fixed.isEmpty || !c.pattern.agrees index

/-- The value of the form of a list of cubes at an index. -/
def value (form : Form) (cubes : List Cube) (index : Nat) : Bool :=
  match form with
  | sop => cubes.any (sop.termValue · index)
  | pos => cubes.all (pos.termValue · index)

/-- The parts of a form in the order in which they are written. Without cubes, a sum is the constant
0 and a product the constant 1. -/
def pieces (form : Form) (vars : Variables) (cubes : List Cube) : List Piece :=
  if cubes.isEmpty then [.constant (form == .pos)]
  else [.nextTerm].intercalate (cubes.map (form.term vars))

end Form

/-- The look of a written form. -/
structure Style where
  /-- What stands between the operands of a conjunction. -/
  conjunction : String
  /-- What stands between the operands of a disjunction. -/
  disjunction : String
  /-- What marks a complemented variable. -/
  negation : String
  /-- The side of the variable on which the mark stands. -/
  negationSide : Side
deriving DecidableEq, Repr

namespace Style

/-- Products are juxtaposed and an apostrophe complements the letter before it. -/
def textbook : Style := ⟨"", " + ", "'", .after⟩

/-- Every operator is written, negation in front of the letter. -/
def operators : Style := ⟨" & ", " | ", "!", .before⟩

/-- The styles that are offered. -/
def presets : List Style := [textbook, operators]

/-- What stands between two literals of a term. -/
def withinTerm (style : Style) : Form → String
  | .sop => style.conjunction
  | .pos => style.disjunction

/-- What stands between two terms. -/
def betweenTerms (style : Style) : Form → String
  | .sop => style.disjunction
  | .pos => style.conjunction

/-- The characters of one piece. The terms of a product of sums stand in parentheses. -/
def symbols (style : Style) (form : Form) : Piece → List Char
  | .constant value => [Text.bit value]
  | .literal name false => [name]
  | .literal name true =>
    match style.negationSide with
    | .before => style.negation.toList ++ [name]
    | .after => name :: style.negation.toList
  | .openTerm => if form = .pos then ['('] else []
  | .closeTerm => if form = .pos then [')'] else []
  | .nextLiteral => (style.withinTerm form).toList
  | .nextTerm => (style.betweenTerms form).toList

/-- Write a list of cubes as a form. -/
def render (style : Style) (form : Form) (vars : Variables) (cubes : List Cube) : String :=
  String.ofList ((form.pieces vars cubes).flatMap (style.symbols form))

end Style

end Switching
