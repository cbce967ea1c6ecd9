import Switching.Fault
import Switching.TermList

/-! # Reading lists of terms

A list of terms is a list of numerals, optionally followed by a second list between `+d(` and `)`,
which holds the don't-care terms. Numerals are separated by blanks and at most one comma, and blanks
may stand between any two parts. A text that does not follow these rules is refused at the column at
which the longest sensible beginning of it ends.
-/

namespace Switching.TermList

/-- A part of a written list of terms. -/
inductive Lexeme where
  /-- A run of digits. -/
  | numeral (digits : List Char)
  /-- Any other character that is not blank. -/
  | mark (char : Char)
deriving DecidableEq, Repr

/-- A part of a written list, with the column in which it begins. -/
structure Placed where
  /-- The column, counted from 1. -/
  column : Nat
  /-- The part. -/
  lexeme : Lexeme
deriving DecidableEq, Repr

/-- Characters that may stand between any two parts of a list and mean nothing. -/
def isGap (c : Char) : Bool :=
  c = ' ' || c = '\t'

/-- Put a digit in front of the parts that follow it. It joins a numeral that begins in the next
column. -/
def consDigit (column : Nat) (digit : Char) : List Placed → List Placed
  | ⟨next, .numeral digits⟩ :: rest =>
    if next = column + 1 then ⟨column, .numeral (digit :: digits)⟩ :: rest
    else ⟨column, .numeral [digit]⟩ :: ⟨next, .numeral digits⟩ :: rest
  | rest => ⟨column, .numeral [digit]⟩ :: rest

/-- The parts of a text that begins in a column. -/
def lexemes (column : Nat) : List Char → List Placed
  | [] => []
  | c :: rest =>
    if isGap c then lexemes (column + 1) rest
    else if c.isDigit then consDigit column c (lexemes (column + 1) rest)
    else ⟨column, .mark c⟩ :: lexemes (column + 1) rest

/-- The column of the first part, or that of the end of the text if there is none. -/
def columnOf (ending : Nat) (parts : List Placed) : Nat :=
  (parts.head?.map (·.column)).getD ending

/-- The numerals of a list and the parts that follow them. -/
abbrev Scanned := List (List Char) × List Placed

/-- Read the numerals that may follow a first one. A comma has to be followed by a numeral. -/
def readMore (ending : Nat) : List Placed → Except Fault Scanned
  | ⟨_, .numeral digits⟩ :: rest =>
    (readMore ending rest).map fun (numerals, rest) => (digits :: numerals, rest)
  | ⟨_, .mark ','⟩ :: ⟨_, .numeral digits⟩ :: rest =>
    (readMore ending rest).map fun (numerals, rest) => (digits :: numerals, rest)
  | ⟨_, .mark ','⟩ :: rest => .error (.malformedTerms (columnOf ending rest) [.value])
  | rest => .ok ([], rest)

/-- Read the numerals at the beginning of a list of parts. -/
def readNumerals (ending : Nat) : List Placed → Except Fault Scanned
  | ⟨_, .numeral digits⟩ :: rest =>
    (readMore ending rest).map fun (numerals, rest) => (digits :: numerals, rest)
  | rest => .ok ([], rest)

/-- The parts after the mark that opens a list of don't-care terms. -/
def afterOpening? : List Placed → Option (List Placed)
  | ⟨_, .mark '+'⟩ :: ⟨_, .mark 'd'⟩ :: ⟨_, .mark '('⟩ :: rest
  | ⟨_, .mark '+'⟩ :: ⟨_, .mark 'D'⟩ :: ⟨_, .mark '('⟩ :: rest => some rest
  | _ => none

/-- Read the don't-care terms after their opening mark, up to the end of the text. -/
def readDontcares (ending : Nat) (parts : List Placed) : Except Fault (List (List Char)) := do
  match ← readNumerals ending parts with
  | (numerals, [⟨_, .mark ')'⟩]) => .ok numerals
  | (_, ⟨_, .mark ')'⟩ :: rest) => .error (.malformedTerms (columnOf ending rest) [.ending])
  | (_, rest) => .error (.malformedTerms (columnOf ending rest) [.value])

/-- What could have stood in a column in which a list without don't-care terms stops. -/
def expectedAt (column : Nat) : List TermPart :=
  if column = 1 then [.terms] else [.ending, .dontcares, .value]

/-- The numerals of the don't-care terms, when `rest` follows the minterms. -/
def readRest (ending : Nat) (rest : List Placed) : Except Fault (List (List Char)) :=
  if rest.isEmpty then .ok []
  else
    match afterOpening? rest with
    | some inner => readDontcares ending inner
    | none =>
      let column := columnOf ending rest
      .error (.malformedTerms column (expectedAt column))

/-- The index that a numeral denotes. Only machine words can be denoted. -/
def readIndex (digits : List Char) : Except Fault Nat :=
  let index := Nat.ofDigitChars 10 digits 0
  if index < 1 <<< Minterm.wordSize then .ok index
  else .error (.termTooLarge (String.ofList digits))

/-- The set of the indices that numerals denote. -/
def readIndices (numerals : List (List Char)) : Except Fault IndexSet :=
  (numerals.mapM readIndex).map IndexSet.ofList

/-- Read a list of terms. -/
def ofString (text : String) : Except Fault TermList := do
  let ending := text.toList.length + 1
  let (minterms, rest) ← readNumerals ending (lexemes 1 text.toList)
  let dontcares ← readRest ending rest
  return ⟨← readIndices minterms, ← readIndices dontcares⟩

/-- An outcome that refuses the text for not following the rules. -/
def Refused {α : Type} (outcome : Except Fault α) : Prop :=
  ∃ column expected, outcome = .error (.malformedTerms column expected)

end Switching.TermList
