import Switching.TermList.Reader

/-! # The grammar of lists of terms

The texts that are lists of terms, with the numerals that they hold. `Written` says it without any
reference to how a text is read.
-/

namespace Switching.TermList

/-- Nothing but blanks and tabs. -/
def IsGaps (text : List Char) : Prop :=
  ∀ c ∈ text, isGap c = true

/-- One or more digits. -/
def IsNumeral (text : List Char) : Prop :=
  text ≠ [] ∧ ∀ c ∈ text, c.isDigit = true

/-- What may stand between two numerals: blanks and at most one comma, but not nothing. -/
def IsSeparation (text : List Char) : Prop :=
  text ≠ [] ∧ ∃ before after, IsGaps before ∧ IsGaps after ∧
    (text = before ++ after ∨ text = before ++ ',' :: after)

/-- A text is a list of numerals. -/
inductive Numerals : List Char → List (List Char) → Prop where
  | nil : Numerals [] []
  | single {digits : List Char} : IsNumeral digits → Numerals digits [digits]
  | cons {digits separation text first : List Char} {rest : List (List Char)} :
      IsNumeral digits → IsSeparation separation → Numerals text (first :: rest) →
      Numerals (digits ++ separation ++ text) (digits :: first :: rest)

/-- A text is a list of numerals with blanks around it. -/
def PaddedNumerals (text : List Char) (numerals : List (List Char)) : Prop :=
  ∃ before inner after, IsGaps before ∧ Numerals inner numerals ∧ IsGaps after ∧
    text = before ++ inner ++ after

/-- The mark that opens a list of don't-care terms. -/
def IsOpening (text : List Char) : Prop :=
  ∃ first second letter, IsGaps first ∧ IsGaps second ∧ (letter = 'd' ∨ letter = 'D') ∧
    text = '+' :: first ++ letter :: second ++ ['(']

/-- A text is a list of terms with the numerals of its minterms and of its don't-care terms. -/
inductive Written : List Char → List (List Char) → List (List Char) → Prop where
  | minterms {text : List Char} {numerals : List (List Char)} :
      PaddedNumerals text numerals → Written text numerals []
  | dontcares {text opening inner after : List Char} {numerals others : List (List Char)} :
      PaddedNumerals text numerals → IsOpening opening → PaddedNumerals inner others →
      IsGaps after → Written (text ++ opening ++ inner ++ ')' :: after) numerals others

end Switching.TermList
