import Switching.Expression

/-! # Truth tables

The value of a function for every assignment of its variables, listed by minterm index. Only the
values are stored: the assignment of a row is the one that its index spells.
-/

namespace Switching

/-- A row of a truth table. -/
structure TruthRow where
  /-- The minterm index of the row. -/
  index : Nat
  /-- The values of the variables. -/
  env : Assignment
  /-- The value of the function. -/
  output : Bool
deriving DecidableEq

/-- The value of a function for each minterm index. -/
structure TruthTable where
  /-- The variables of the function, the most significant one first. -/
  vars : Variables
  /-- The value for each index, from 0 on. -/
  outputs : List Bool
deriving DecidableEq

namespace TruthTable

/-- The largest number of variables for which an expression is tabulated. -/
def maxVariables : Nat := 8

/-- The value of an optional expression at an index. Without expression, it is false. -/
def outputAt (vars : Variables) (expression : Option Expression) (index : Nat) :
    Except Fault Bool :=
  match expression with
  | some e => e.eval (Assignment.ofIndex vars index)
  | none => .ok false

/-- Tabulate an expression. The first row that has no value makes the whole table fail. -/
def build (vars : Variables) (expression : Option Expression) : Except Fault TruthTable :=
  if maxVariables < vars.size then .error (.tooManyVariables vars.size maxVariables)
  else
    let indices := List.range (Minterm.count vars.size)
    (indices.mapM (outputAt vars expression)).map (TruthTable.mk vars)

/-- The number of rows. -/
def size (table : TruthTable) : Nat :=
  table.outputs.length

/-- The row of an index and its value. -/
def row (table : TruthTable) (index : Nat) (output : Bool) : TruthRow :=
  ⟨index, Assignment.ofIndex table.vars index, output⟩

/-- The rows in the order of their indices. -/
def rows (table : TruthTable) : List TruthRow :=
  table.outputs.mapIdx table.row

/-- The indices at which the function has a value. -/
def indicesOf (table : TruthTable) (value : Bool) : IndexSet :=
  (IndexSet.range table.size).filter fun index => table.outputs[index]? == some value

/-- The indices at which the function is true. -/
def minterms (table : TruthTable) : IndexSet :=
  table.indicesOf true

/-- The indices at which the function is false. -/
def maxterms (table : TruthTable) : IndexSet :=
  table.indicesOf false

/-- One line of a written table: the columns of the variables, then that of the function. -/
def line (columns : List Char) (last : Char) : List Char :=
  columns.intersperse ' ' ++ [' ', '|', ' ', last, '\n']

/-- The values of the variables in a row. A variable that has none is written as false. -/
def rowBits (table : TruthTable) (row : TruthRow) : List Char :=
  table.vars.names.map fun name => Text.bit ((row.env.get? name).getD false)

/-- The table with one line for its head and one for each row. -/
def text (table : TruthTable) : String :=
  String.ofList (line table.vars.names 'F' ++
    table.rows.flatMap fun row => line (table.rowBits row) (Text.bit row.output))

/-- Each row gives each variable the value of its own bit. -/
def OwnBits (table : TruthTable) : Prop :=
  ∀ row ∈ table.rows, row.env.Spells table.vars row.index

/-- An index belongs to a value when the function has that value there. -/
@[simp] theorem mem_indicesOf {table : TruthTable} {value : Bool} {index : Nat} :
    index ∈ table.indicesOf value ↔ table.outputs[index]? = some value := by
  simp only [indicesOf, IndexSet.mem_filter, IndexSet.mem_range, beq_iff_eq, and_iff_right_iff_imp]
  intro found
  exact (List.getElem?_eq_some_iff.mp found).1

end TruthTable

end Switching
