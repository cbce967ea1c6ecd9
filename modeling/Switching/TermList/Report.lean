import Switching.TermList.Grammar
import Switching.TermList.Rule

/-! # What is reported of a refused text

While the rules for lists of terms read a text, some of them are tried and fail. For a text that is
refused, the failures that lie furthest to the right tell where it stops making sense and what could
have followed there.
-/

namespace Switching.TermList

/-- A text is a list of terms, whatever its numerals are. -/
def Accepted (text : List Char) : Prop :=
  ∃ minterms others, Written text minterms others

/-- A part can go on after the beginning of a text so that a list of terms comes of it, whatever the
part is. -/
def CanFollow (front : List Char) : TermPart → Prop
  | .terms => ∀ text, Accepted text → Accepted (front ++ text)
  | .value => ∀ digits, IsNumeral digits → ∃ more, Accepted (front ++ digits ++ more)
  | .dontcares => Accepted (front ++ "+d()".toList)
  | .ending => Accepted front

namespace Rule

open Text (Parsing)

/-- What follows a comma, if there is one. -/
def afterComma (text : List Char) : List Char :=
  if text.head? = some ',' then text.tail else text

/-- Where a numeral is tried in a list that is read from a text: at its beginning and, after each
numeral, behind a comma that may follow, and behind gaps. -/
inductive Tries : List Char → List Char → Prop where
  | first {text : List Char} : Tries text text
  | another {text digits rest here : List Char} : value text = some (digits, rest) →
      Tries ((afterComma (rest.dropWhile isGap)).dropWhile isGap) here → Tries text here

/-- The rules that are tried and fail while a text is read, with what was left of the text where they
were tried. -/
inductive Fails (text : List Char) : TermPart → List Char → Prop where
  /-- No numeral goes on with the minterms. -/
  | minterm {here : List Char} : Tries (text.dropWhile isGap) here → value here = none →
      Fails text .value here
  /-- No complete don't-care terms follow the minterms. -/
  | dontcares {minterms : List (List Char)} {rest : List Char} :
      list (text.dropWhile isGap) = some (minterms, rest) →
      dontcares (rest.dropWhile isGap) = none → Fails text .dontcares (rest.dropWhile isGap)
  /-- No numeral goes on with the don't-care terms, complete or not. -/
  | dontcare {minterms : List (List Char)} {rest inner here : List Char} :
      list (text.dropWhile isGap) = some (minterms, rest) →
      opening (rest.dropWhile isGap) = some ((), inner) → Tries (inner.dropWhile isGap) here →
      value here = none → Fails text .value here
  /-- The text goes on after the minterms and any complete don't-care terms. -/
  | ending {minterms : List (List Char)} {others : Option (List (List Char))}
      {rest last : List Char} :
      list (text.dropWhile isGap) = some (minterms, rest) →
      dontcares.optional (rest.dropWhile isGap) = some (others, last) →
      Parsing.ending (last.dropWhile isGap) = none → Fails text .ending (last.dropWhile isGap)

/-- What is reported of a text: the furthest failures are in front of `rest`, and `expected` lists the
rules that fail there, or the whole list if nothing was read before. -/
structure Reports (text front rest : List Char) (expected : List TermPart) : Prop where
  split : text = front ++ rest
  furthest : ∀ part here, Fails text part here → rest.length ≤ here.length
  failing : ∃ parts : List TermPart, parts ≠ [] ∧ parts.Sublist [.ending, .dontcares, .value] ∧
    (∀ part, part ∈ parts ↔ Fails text part rest) ∧
    expected = if front.isEmpty then [.terms] else parts

end Rule

end Switching.TermList
