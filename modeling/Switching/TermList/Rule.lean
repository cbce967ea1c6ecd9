import Switching.TermList.Reader
import Switching.Text.Parsing

/-! # The rules of lists of terms

The grammar of lists of terms as parsing expressions, one for each of its rules.
-/

namespace Switching.TermList.Rule

open Text (Parsing)

/-- A numeral. -/
def value : Parsing (List Char) := .word Char.isDigit

/-- A numeral that may have a comma before it. -/
def another : Parsing (List Char) :=
  ((Parsing.char (· == ',')).optional.followedBy isGap value).map (·.2)

/-- One or more numerals. -/
def several : Parsing (List (List Char)) :=
  (value.followedBy isGap (another.repeated isGap)).map fun (first, others) => first :: others

/-- Any number of numerals. -/
def list : Parsing (List (List Char)) := several.optional.map (·.getD [])

/-- The mark that opens a list of don't-care terms. -/
def opening : Parsing Unit :=
  (((Parsing.char (· == '+')).followedBy isGap (.char fun c => c == 'd' || c == 'D')).followedBy isGap
    (.char (· == '('))).map fun _ => ()

/-- The don't-care terms in their parentheses. -/
def dontcares : Parsing (List (List Char)) :=
  ((opening.followedBy isGap list).followedBy isGap (.char (· == ')'))).map (·.1.2)

/-- A whole list of terms: the numerals of its minterms and of its don't-care terms. -/
def terms : Parsing (List (List Char) × List (List Char)) := fun text =>
  ((list.followedBy isGap dontcares.optional).followedBy isGap .ending).map
    (fun ((minterms, dontcares), _) => (minterms, dontcares.getD [])) (text.dropWhile isGap)

end Switching.TermList.Rule
