import Switching.IndexSet
import Switching.Minterm

/-! # Lists of terms

The minterms and the don't-care terms of a function, given by their indices. An index may be listed
as both.
-/

namespace Switching

/-- The terms at which a function is true and those at which its value does not matter. -/
structure TermList where
  /-- The indices at which the function is true. -/
  minterms : IndexSet
  /-- The indices at which the value of the function does not matter. -/
  dontcares : IndexSet
deriving DecidableEq

namespace TermList

instance : EmptyCollection TermList := ⟨⟨∅, ∅⟩⟩

instance : Inhabited TermList := ⟨∅⟩

/-- The indices over a number of variables at which the function is false. -/
def complement (terms : TermList) (width : Nat) : IndexSet :=
  (IndexSet.range (Minterm.count width)).filter fun index =>
    decide (index ∉ terms.minterms) && decide (index ∉ terms.dontcares)

/-- The indices of both lists, the minterms first. -/
def indices (terms : TermList) : List Nat :=
  terms.minterms.toList ++ terms.dontcares.toList

/-- Whether all indices are minterms over a number of variables. -/
def fits (terms : TermList) (width : Nat) : Bool :=
  terms.indices.all (Minterm.inRange · width)

/-- Whether no index is listed. -/
def isEmpty (terms : TermList) : Bool :=
  terms.minterms.isEmpty && terms.dontcares.isEmpty

/-- The numerals of a set of indices, separated by commas. -/
def numerals (indices : IndexSet) : List Char :=
  [','].intercalate (indices.toList.map (Nat.toDigits 10))

/-- The list as text: the minterms, then any don't-care terms in their parentheses. -/
def text (terms : TermList) : String :=
  String.ofList (numerals terms.minterms ++
    if terms.dontcares.isEmpty then []
    else ['+', 'd', '('] ++ numerals terms.dontcares ++ [')'])

theorem mem_complement {terms : TermList} {width index : Nat} :
    index ∈ terms.complement width ↔
      index < Minterm.count width ∧ index ∉ terms.minterms ∧ index ∉ terms.dontcares := by
  simp [complement]

end TermList

end Switching
