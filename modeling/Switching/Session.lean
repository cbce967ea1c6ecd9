import Switching.Expression.Parser
import Switching.KarnaughMap
import Switching.Minimized
import Switching.TermList
import Switching.TruthTable

/-! # Sessions

A session holds a function that is being edited: its variables, the value of each cell, which may be
left open, and the form in which it is to be minimized. Operations never change a session, they
return a new one.
-/

namespace Switching

/-- The largest numbers of variables with which a session works. -/
structure Limits where
  /-- The largest function that is held. -/
  table : Nat
  /-- The largest function that is laid out on a Karnaugh map. -/
  map : Nat
  /-- The largest function that is minimized. -/
  minimize : Nat
deriving DecidableEq, Repr

namespace Limits

/-- The limits of a session that is not given any. -/
def standard : Limits :=
  ⟨TruthTable.maxVariables, KarnaughMap.maxVariables, TruthTable.maxVariables⟩

/-- The limits of a session that is edited on a Karnaugh map only. -/
def mapOnly : Limits :=
  ⟨KarnaughMap.maxVariables, KarnaughMap.maxVariables, KarnaughMap.maxVariables⟩

/-- Refuse a number of variables above a limit. -/
def check (count max : Nat) : Except Fault Unit :=
  if max < count then .error (.tooManyVariables count max) else .ok ()

end Limits

/-- The value of a function at one index. -/
inductive Cell where
  | zero
  | one
  /-- The value does not matter. -/
  | dontCare
deriving DecidableEq, Repr

namespace Cell

instance : Inhabited Cell := ⟨zero⟩

/-- The value that follows when a cell is toggled. -/
def next : Cell → Cell
  | zero => one
  | one => dontCare
  | dontCare => zero

/-- The place of a value in the cycle that starts with false, goes on to true and then to a value that
does not matter. -/
def place : Cell → Nat
  | zero => 0
  | one => 1
  | dontCare => 2

/-- The cell of a known value. -/
def ofBool : Bool → Cell
  | false => zero
  | true => one

/-- The character that stands for a cell. -/
def symbol : Cell → Char
  | zero => '0'
  | one => '1'
  | dontCare => 'X'

end Cell

/-- A function that is being edited. -/
structure Session where
  /-- The variables of the function. -/
  vars : Variables
  /-- The form in which the function is minimized. -/
  form : Form
  /-- The value at each index, from 0 on. -/
  cells : List Cell
  /-- The largest numbers of variables with which the session works. -/
  limits : Limits
deriving DecidableEq

namespace Session

/-- The function that is false everywhere, to be minimized as a sum of products. -/
def blank (vars : Variables) (limits : Limits) : Except Fault Session := do
  Limits.check vars.size limits.table
  return ⟨vars, .sop, List.replicate (Minterm.count vars.size) .zero, limits⟩

/-- The function of an expression over its own variables. -/
def ofExpression (text : String) (limits : Limits) : Except Fault Session := do
  let e ← Expression.parse text
  Limits.check e.vars.size limits.table
  let table ← TruthTable.build e.vars (some e)
  return ⟨e.vars, .sop, table.outputs.map Cell.ofBool, limits⟩

/-- The value of a list of terms at an index. An index that is listed twice is a minterm. -/
def cellOf (terms : TermList) (index : Nat) : Cell :=
  if index ∈ terms.minterms then .one
  else if index ∈ terms.dontcares then .dontCare
  else .zero

/-- The function of a list of terms. -/
def ofTerms (vars : Variables) (terms : TermList) (limits : Limits) : Except Fault Session := do
  let start ← blank vars limits
  match terms.indices.find? (start.cells.length ≤ ·) with
  | some index => .error (.noSuchCell index)
  | none => return { start with cells := (List.range start.cells.length).map (cellOf terms) }

/-- The value at an index. -/
def cell? (s : Session) (index : Nat) : Option Cell :=
  s.cells[index]?

/-- Two indices that differ in the bit of a variable only have different cells. -/
def DependsOn (s : Session) (position : Nat) : Prop :=
  ∃ index other, Minterm.DifferAt s.vars.size position index other ∧ s.cell? index ≠ s.cell? other

/-- The index, over the variables of a session, of the assignment that an index over other variables
spells. A variable that is missing there is false. -/
def sourceIndex (s : Session) (vars : Variables) (index : Nat) : Nat :=
  let env := Assignment.ofIndex vars index
  Minterm.ofBits (s.vars.names.map fun name => (env.get? name).getD false)

/-- The same function over other variables. It does not depend on added variables, and removed ones
are false. -/
def withVariables (s : Session) (vars : Variables) : Except Fault Session := do
  let start ← blank vars s.limits
  let cellAt index := (s.cell? (s.sourceIndex vars index)).getD default
  return { start with form := s.form, cells := (List.range start.cells.length).map cellAt }

/-- The same function, to be minimized in another form. -/
def withForm (s : Session) (form : Form) : Session :=
  { s with form := form }

/-- Set the value at an index. -/
def withCell (s : Session) (index : Nat) (value : Cell) : Except Fault Session :=
  if index < s.cells.length then .ok { s with cells := s.cells.set index value }
  else .error (.noSuchCell index)

/-- Change the value at an index to the next one. -/
def toggle (s : Session) (index : Nat) : Except Fault Session :=
  match s.cell? index with
  | some value => s.withCell index value.next
  | none => .error (.noSuchCell index)

/-- The Karnaugh map of the function. -/
def layout (s : Session) : Except Fault KarnaughMap := do
  Limits.check s.vars.size s.limits.map
  match KarnaughMap.ofVariables s.vars with
  | some map => return map
  | none => .error (.noLayout s.vars.size)

/-- Change the value at a cell of the Karnaugh map to the next one. -/
def toggleCell (s : Session) (row col : Nat) : Except Fault Session := do
  match (← s.layout).index? row col with
  | some index => s.toggle index
  | none => .error (.noSuchPosition row col)

/-- The indices of the cells with a value. -/
def indicesOf (s : Session) (value : Cell) : IndexSet :=
  (IndexSet.range s.cells.length).filter fun index => s.cells[index]? == some value

/-- The minterms and the don't-care terms of the function. -/
def terms (s : Session) : TermList :=
  ⟨s.indicesOf .one, s.indicesOf .dontCare⟩

/-- The truth table of the function, in which values that do not matter are false. -/
def truthTable (s : Session) : TruthTable :=
  ⟨s.vars, s.cells.map (· == .one)⟩

/-- Minimize the function in its form. A product of sums covers the false cells; a function without
a true cell is then known to be false. -/
def minimize (s : Session) : Except Fault Minimized := do
  Limits.check s.vars.size s.limits.minimize
  let terms := s.terms
  match s.form with
  | .sop => return Switching.minimize terms.minterms terms.dontcares s.vars .sop
  | .pos =>
    if terms.minterms.isEmpty then return .ofConstant .pos s.vars false
    else
      let maxterms := terms.complement s.vars.size
      return Switching.minimize maxterms terms.dontcares s.vars .pos

end Session

end Switching
