import Switching.Session

/-! # Editing a session

The changes that can be made to a session as data, the sessions that can be reached by them, and runs
of changes.
-/

namespace Switching

/-- A change of a session. -/
inductive Edit where
  /-- Change the value at an index to the next one. -/
  | toggle (index : Nat)
  /-- Change the value at a cell of the Karnaugh map to the next one. -/
  | toggleCell (row col : Nat)
  /-- Set the value at an index. -/
  | setCell (index : Nat) (value : Cell)
  /-- Choose the form in which the function is minimized. -/
  | setForm (form : Form)
  /-- Choose the variables. -/
  | setVariables (vars : Variables)
deriving DecidableEq

namespace Edit

/-- The form that a change chooses. -/
def form? : Edit → Option Form
  | .setForm form => some form
  | _ => none

/-- Whether a change goes on to the next value of a cell. -/
def isToggle : Edit → Bool
  | .toggle _ => true
  | .toggleCell .. => true
  | .setCell .. => false
  | .setForm _ => false
  | .setVariables _ => false

/-- The form that was chosen last. -/
def lastForm? (changes : List Edit) : Option Form :=
  (changes.filterMap form?).getLast?

end Edit

namespace Session

/-- Make a change. -/
def apply (s : Session) : Edit → Except Fault Session
  | .toggle index => s.toggle index
  | .toggleCell row col => s.toggleCell row col
  | .setCell index value => s.withCell index value
  | .setForm form => .ok (s.withForm form)
  | .setVariables vars => s.withVariables vars

/-- Make changes one after the other. The first one that fails ends the run. -/
def run (s : Session) (changes : List Edit) : Except Fault Session :=
  changes.foldlM apply s

/-- Whether a change goes on to the next value at an index, which it names or which stands at the
position on the Karnaugh map that it names. -/
def toggles (s : Session) (index : Nat) : Edit → Bool
  | .toggle other => other == index
  | .toggleCell row col =>
    match s.layout with
    | .ok map => map.position? index == some (row, col)
    | .error _ => false
  | .setCell .. => false
  | .setForm _ => false
  | .setVariables _ => false

/-- The sessions with which a run under given limits can begin. -/
inductive Begins (limits : Limits) : Session → Prop where
  | blank {vars : Variables} {s : Session} : blank vars limits = .ok s → Begins limits s
  | ofExpression {text : String} {s : Session} : ofExpression text limits = .ok s → Begins limits s
  | ofTerms {vars : Variables} {terms : TermList} {s : Session} :
      ofTerms vars terms limits = .ok s → Begins limits s

/-- The sessions that begin with variables, an expression or a list of terms, and go on by changes
that succeed. -/
inductive Reachable : Session → Prop where
  | blank {vars : Variables} {limits : Limits} {s : Session} :
      blank vars limits = .ok s → Reachable s
  | ofExpression {text : String} {limits : Limits} {s : Session} :
      ofExpression text limits = .ok s → Reachable s
  | ofTerms {vars : Variables} {terms : TermList} {limits : Limits} {s : Session} :
      ofTerms vars terms limits = .ok s → Reachable s
  | edit {s next : Session} {change : Edit} :
      Reachable s → s.apply change = .ok next → Reachable next

end Session

end Switching
