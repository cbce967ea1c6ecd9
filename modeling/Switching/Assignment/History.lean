import Switching.Assignment
import Switching.IndexSet

/-! # Histories of an assignment

What an assignment starts as and the changes that are made to it, as data. The value of a letter after
them can be read off the history (`Source.valueAfter`). An assignment can also be kept as two sets of
places in the alphabet (`LetterSets`): the letters that have a value and those that are true. A change is
then made to both sets, and they are compared by the letters and values that they list.
-/

namespace Switching

namespace Assignment

/-- A change of an assignment. -/
inductive Change where
  /-- Give a value to a letter. -/
  | set (name : Char) (value : Bool)
  /-- Take the value of a letter away. -/
  | erase (name : Char)
deriving DecidableEq

namespace Change

/-- The character to which the change is made. -/
def name : Change → Char
  | set name _ => name
  | erase name => name

/-- The value that the letter has afterwards. -/
def value? : Change → Option Bool
  | set _ value => some value
  | erase _ => none

/-- Whether a change is made to a letter, in whatever case. -/
def concerns (change : Change) (name : Char) : Bool :=
  change.name.toUpper == name.toUpper

/-- The last change that is made to a letter. -/
def last? (changes : List Change) (name : Char) : Option Change :=
  (changes.filter (·.concerns name)).getLast?

end Change

/-- What an assignment can start as. -/
inductive Source where
  /-- No letter has a value. -/
  | empty
  /-- The variables have the bits of an index. -/
  | index (vars : Variables) (index : Nat)

namespace Source

/-- The variables are letters, no two of them the same one in whatever case. -/
def Distinct : Source → Prop
  | empty => True
  | index vars _ =>
    (∀ name ∈ vars.names, name.isAlpha = true) ∧ (vars.names.map Char.toUpper).Nodup

/-- The value that a letter has to begin with. -/
def value? : Source → Char → Option Bool
  | empty, _ => none
  | index vars minterm, name =>
    (vars.names.findIdx? (·.toUpper == name.toUpper)).map (Minterm.bitAt minterm vars.size)

/-- The value of a character after changes. A letter has the value that the last change of it gave to
it, or the one that it had to begin with; other characters have none. -/
def valueAfter (source : Source) (changes : List Change) (name : Char) : Option Bool :=
  if name.isAlpha then (Change.last? changes name).elim (source.value? name) Change.value?
  else none

end Source

/-- Make a change. -/
def change (env : Assignment) : Change → Assignment
  | .set name value => env.set name value
  | .erase name => env.erase name

/-- Start an assignment. -/
def ofSource : Source → Assignment
  | .empty => ∅
  | .index vars index => ofIndex vars index

/-- Start an assignment and make changes, one after the other. -/
def build (source : Source) (changes : List Change) : Assignment :=
  changes.foldl change (ofSource source)

end Assignment

/-- An assignment as two sets of places in the alphabet. -/
structure LetterSets where
  /-- The letters that have a value. -/
  assigned : IndexSet
  /-- The letters that are true. -/
  values : IndexSet

namespace LetterSets

open Assignment (Change Source)

instance : EmptyCollection LetterSets := ⟨⟨∅, ∅⟩⟩

/-- Give a value to a letter. -/
def set (sets : LetterSets) (name : Char) (value : Bool) : LetterSets :=
  match Letter.slot? name with
  | some slot =>
    ⟨sets.assigned.insert slot, if value then sets.values.insert slot else sets.values.erase slot⟩
  | none => sets

/-- Take the value of a letter away. -/
def erase (sets : LetterSets) (name : Char) : LetterSets :=
  match Letter.slot? name with
  | some slot => ⟨sets.assigned.erase slot, sets.values.erase slot⟩
  | none => sets

/-- The value of a letter, if it has one. -/
def get? (sets : LetterSets) (name : Char) : Option Bool :=
  (Letter.slot? name).bind fun slot =>
    if slot.val ∈ sets.assigned then some (decide (slot.val ∈ sets.values)) else none

/-- The letters that have a value, in alphabetical order, with their values. -/
def pairs (sets : LetterSets) : List (Char × Bool) :=
  sets.assigned.toList.map fun slot => (Char.ofNat ('A'.toNat + slot), decide (slot ∈ sets.values))

/-- The number of letters that have a value. -/
def size (sets : LetterSets) : Nat :=
  sets.assigned.size

instance : BEq LetterSets := ⟨fun sets other => sets.pairs == other.pairs⟩

/-- The two sets for the assignment that a minterm index spells. -/
def ofIndex (vars : Variables) (index : Nat) : LetterSets :=
  (vars.names.zip (Minterm.bits vars.size index)).foldl (fun sets pair => sets.set pair.1 pair.2) ∅

/-- Make a change. -/
def change (sets : LetterSets) : Change → LetterSets
  | .set name value => sets.set name value
  | .erase name => sets.erase name

/-- The two sets to start with. -/
def ofSource : Source → LetterSets
  | .empty => ∅
  | .index vars index => ofIndex vars index

/-- Start with two sets and make changes, one after the other. -/
def build (source : Source) (changes : List Change) : LetterSets :=
  changes.foldl change (ofSource source)

end LetterSets

end Switching
