import Switching.Fault
import Switching.Text.Character

/-! # Two-level forms -/

namespace Switching

/-- The shape of a minimized expression. -/
inductive Form where
  /-- A sum of products: a disjunction of conjunctions. -/
  | sop
  /-- A product of sums: a conjunction of disjunctions. -/
  | pos
deriving DecidableEq, Repr

namespace Form

/-- Read the name of a form, in either case and with blanks around it. -/
def ofString (text : String) : Except Fault Form :=
  match (Text.trim text.toList).map Char.toLower with
  | ['s', 'o', 'p'] => .ok sop
  | ['p', 'o', 's'] => .ok pos
  | _ => .error (.invalidName text)

/-- The name of a form. -/
def text : Form → String
  | sop => "SOP"
  | pos => "POS"

end Form

end Switching
