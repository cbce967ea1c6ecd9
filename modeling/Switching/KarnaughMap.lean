import Switching.Variables

/-! # Karnaugh maps

The minterms of one to four variables are laid out in a grid, so that neighbouring cells differ in
one variable, across the borders too. The first variables are read off the rows and the others off
the columns, both in the order of a Gray code.
-/

namespace Switching

/-- The numbers of a number of bits in the order of the reflected Gray code, in which neighbours
differ in one bit. -/
def grayCode (width : Nat) : List Nat :=
  (List.range (1 <<< width)).map fun n => n ^^^ (n >>> 1)

/-- The layout of a Karnaugh map. -/
structure KarnaughMap where
  /-- The variables that are read off the rows. -/
  rowVars : List Char
  /-- The variables that are read off the columns. -/
  colVars : List Char
deriving DecidableEq, Repr

namespace KarnaughMap

/-- The largest number of variables with a map. -/
def maxVariables : Nat := 4

/-- The map of a list of variables: one to three have one variable on the rows, four have two. -/
def ofVariables (vars : Variables) : Option KarnaughMap :=
  if vars.size = 0 ∨ maxVariables < vars.size then none
  else
    let split := max 1 (vars.size / 2)
    some ⟨vars.names.take split, vars.names.drop split⟩

/-- The map of the first letters of the alphabet. -/
def ofCount (count : Nat) : Option KarnaughMap :=
  (Variables.alphabetic count).toOption.bind ofVariables

/-- The number of variables. -/
def size (map : KarnaughMap) : Nat :=
  map.rowVars.length + map.colVars.length

/-- The values of the row variables, from the first row on. -/
def rowCodes (map : KarnaughMap) : List Nat :=
  grayCode map.rowVars.length

/-- The values of the column variables, from the first column on. The one column of a map without
column variables has the value 0. -/
def colCodes (map : KarnaughMap) : List Nat :=
  grayCode map.colVars.length

/-- What is written above the columns: their values, but nothing if there are no variables. -/
def colLabels (map : KarnaughMap) : List Nat :=
  if map.colVars.isEmpty then [] else map.colCodes

/-- The number of rows. -/
def height (map : KarnaughMap) : Nat :=
  map.rowCodes.length

/-- The number of columns. -/
def width (map : KarnaughMap) : Nat :=
  map.colCodes.length

/-- The index of a minterm: the bits of its row, then those of its column. -/
def cellIndex (map : KarnaughMap) (row col : Nat) : Nat :=
  row <<< map.colVars.length + col

/-- The minterm index of a cell; none outside of the map. -/
def index? (map : KarnaughMap) (row col : Nat) : Option Nat := do
  return map.cellIndex (← map.rowCodes[row]?) (← map.colCodes[col]?)

/-- The cells, row by row: the row and the column of each, and its minterm index. -/
def cells (map : KarnaughMap) : List (Nat × Nat × Nat) :=
  map.rowCodes.zipIdx.flatMap fun (rowCode, row) =>
    map.colCodes.zipIdx.map fun (colCode, col) => (row, col, map.cellIndex rowCode colCode)

/-- The row and the column of a minterm. -/
def position? (map : KarnaughMap) (minterm : Nat) : Option (Nat × Nat) :=
  (map.cells.find? (·.2.2 == minterm)).map fun cell => (cell.1, cell.2.1)

end KarnaughMap

end Switching
