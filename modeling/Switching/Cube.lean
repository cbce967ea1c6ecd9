import Switching.Fault
import Switching.IndexSet
import Switching.Letter
import Switching.Minterm
import Switching.Text.Character

/-! # Cubes

A cube fixes some of the variables of a function and leaves the others free, and so stands for all
minterms with the fixed values. It also remembers the minterms that it was put together from, its
origins; two cubes with one pattern and different origins are different.
-/

namespace Switching

/-- The value of each variable position, none where the position is free. -/
abbrev Pattern := List (Option Bool)

namespace Pattern

/-- The number of free positions. -/
def dashes (p : Pattern) : Nat :=
  p.count none

/-- The number of positions that are fixed to true. -/
def ones (p : Pattern) : Nat :=
  p.count (some true)

/-- Whether the low bits of an index have all fixed values. -/
def agrees : Pattern → Nat → Bool
  | [], _ => true
  | none :: p, index => agrees p index
  | some value :: p, index => index.testBit p.length == value && agrees p index

/-- Whether a minterm index has all fixed values. -/
def covers (p : Pattern) (index : Nat) : Bool :=
  Minterm.inRange index p.length && p.agrees index

/-- Indices, followed by the same ones with a higher bit set. -/
def doubled (weight : Nat) (indices : List Nat) : List Nat :=
  indices ++ indices.map (weight + ·)

/-- The covered indices, in increasing order. A free position doubles them. -/
def coveredList : Pattern → List Nat
  | [] => [0]
  | some false :: p => coveredList p
  | some true :: p => (coveredList p).map (1 <<< p.length + ·)
  | none :: p => doubled (1 <<< p.length) (coveredList p)

/-- Free the one position in which two patterns have opposite values. There is no result unless the
patterns are equal everywhere else. -/
def merge? : Pattern → Pattern → Option Pattern
  | x :: p, y :: q =>
    if x = y then (merge? p q).map (x :: ·)
    else if x.isSome && y.isSome && p == q then some (none :: p)
    else none
  | _, _ => none

/-- Free the one position in which two patterns differ, provided that no position to its left is
free. -/
def mergeLeading? : Pattern → Pattern → Option Pattern
  | some x :: p, some y :: q =>
    if x = y then (mergeLeading? p q).map (some x :: ·)
    else if p == q then some (none :: p)
    else none
  | _, _ => none

/-- The fixed positions with their values, from the left. -/
def fixed (p : Pattern) : List (Nat × Bool) :=
  p.zipIdx.filterMap fun entry => entry.1.map fun value => (entry.2, value)

/-- The character that stands for a position. -/
def symbol : Option Bool → Char
  | some value => Text.bit value
  | none => '-'

/-- The position that a character stands for. -/
def ofSymbol? : Char → Option (Option Bool)
  | '0' => some (some false)
  | '1' => some (some true)
  | '-' => some none
  | _ => none

/-- The pattern as a word of symbols. -/
def symbols (p : Pattern) : List Char :=
  p.map symbol

theorem coveredList_lt {p : Pattern} {index : Nat} (member : index ∈ p.coveredList) :
    index < 1 <<< p.length := by
  induction p generalizing index with
  | nil => simp_all [coveredList]
  | cons x p ih =>
    rw [List.length_cons, Nat.shiftLeft_succ]
    have upper : ∀ a ∈ (coveredList p).map (1 <<< p.length + ·), a < 2 * 1 <<< p.length := by
      intro a shifted
      obtain ⟨b, lower, rfl⟩ := List.mem_map.mp shifted
      have := ih lower
      omega
    match x with
    | some false =>
      have := ih member
      omega
    | some true => exact upper _ member
    | none =>
      rcases List.mem_append.mp member with member | member
      · have := ih member
        omega
      · exact upper _ member

theorem sorted_coveredList (p : Pattern) : p.coveredList.Pairwise (· < ·) := by
  induction p with
  | nil => exact List.pairwise_singleton ..
  | cons x p ih =>
    have shifted : ((coveredList p).map (1 <<< p.length + ·)).Pairwise (· < ·) :=
      List.pairwise_map.mpr (ih.imp fun less => Nat.add_lt_add_left less _)
    match x with
    | some false => exact ih
    | some true => exact shifted
    | none =>
      refine List.pairwise_append.mpr ⟨ih, shifted, fun a left b right => ?_⟩
      obtain ⟨c, _, rfl⟩ := List.mem_map.mp right
      have := coveredList_lt left
      omega

/-- The set of the covered indices. -/
def covered (p : Pattern) : IndexSet :=
  ⟨p.coveredList, sorted_coveredList p⟩

@[simp] theorem symbol_ofSymbol? (x : Option Bool) : ofSymbol? (symbol x) = some x := by
  match x with
  | none => rfl
  | some false => rfl
  | some true => rfl

end Pattern

/-- A pattern together with the minterms that it was put together from. -/
structure Cube where
  /-- The fixed and the free positions. -/
  pattern : Pattern
  /-- The minterms, or don't-care terms, that were merged into this cube. -/
  origins : IndexSet
deriving DecidableEq

namespace Cube

/-- The number of variable positions. -/
def width (c : Cube) : Nat :=
  c.pattern.length

/-- The cube of a single minterm. Up to 64 variables this is the cube of a machine word; over more, what
is read off a word differs from the bits of its number (`ofWord?`). -/
def ofMinterm (index width : Nat) : Cube :=
  ⟨(Minterm.bits width index).map some, IndexSet.singleton index⟩

/-- The cube of a pattern, put together from all minterms that it covers. -/
def ofPattern (p : Pattern) : Cube :=
  ⟨p, p.covered⟩

/-- Whether a minterm index has all fixed values of a cube. -/
def covers (c : Cube) (index : Nat) : Bool :=
  c.pattern.covers index

/-- Merge two cubes that differ in the value of one position. The result has the origins of both. -/
def combine? (a b : Cube) : Option Cube :=
  (a.pattern.merge? b.pattern).map fun p => ⟨p, a.origins ∪ b.origins⟩

/-- Merge two cubes as `combine?` does, provided that the position that becomes free is to the left
of all others that are free. -/
def combineLeading? (a b : Cube) : Option Cube :=
  (a.pattern.mergeLeading? b.pattern).map fun p => ⟨p, a.origins ∪ b.origins⟩

/-- Whether two cubes can be merged. -/
def merges (a b : Cube) : Bool :=
  (a.pattern.merge? b.pattern).isSome

/-- The widest pattern that is read from text: one position for each letter. -/
def maxWidth : Nat := Letter.alphabetSize

/-- Characters that may stand anywhere in a written pattern and mean nothing. -/
def isGap (c : Char) : Bool :=
  c = ' ' || c = '\t'

/-- Read a pattern of symbols as the cube of all minterms that it covers. -/
def ofString (text : String) : Except Fault Cube :=
  match (text.toList.filter (!isGap ·)).mapM Pattern.ofSymbol? with
  | none => .error (.invalidPattern text)
  | some p =>
    if maxWidth < p.length then .error (.tooManyVariables p.length maxWidth)
    else .ok (ofPattern p)

/-- The symbols of the pattern. -/
def text (c : Cube) : String :=
  String.ofList c.pattern.symbols

/-- The symbols of the pattern, followed by the origins in parentheses. -/
def textWithOrigins (c : Cube) : String :=
  String.ofList (c.pattern.symbols ++ [' ', '('] ++
    [','].intercalate (c.origins.toList.map (Nat.toDigits 10)) ++ [')'])

end Cube

end Switching
