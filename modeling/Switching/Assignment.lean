import Switching.Minterm
import Switching.Text.Character
import Switching.Variables

/-! # Assignments

An assignment gives truth values to some of the 26 letters, in either case. A character that is not
a letter has no value and cannot be given one. Two assignments are equal when `get?` agrees on them
for every letter.
-/

namespace Switching

/-- Truth values for some of the letters. -/
structure Assignment where
  /-- The value of each letter, in alphabetical order. -/
  slots : Vector (Option Bool) Letter.alphabetSize
deriving DecidableEq

namespace Assignment

instance : EmptyCollection Assignment := ⟨⟨Vector.replicate _ none⟩⟩

instance : Inhabited Assignment := ⟨∅⟩

/-- Give a value to a letter, or take its value away. -/
def assign (env : Assignment) (name : Char) (value : Option Bool) : Assignment :=
  match Letter.slot? name with
  | some slot => ⟨env.slots.set slot value⟩
  | none => env

/-- Give a value to a letter. -/
def set (env : Assignment) (name : Char) (value : Bool) : Assignment :=
  env.assign name (some value)

/-- Take the value of a letter away. -/
def erase (env : Assignment) (name : Char) : Assignment :=
  env.assign name none

/-- The value of a letter, if it has one. -/
def get? (env : Assignment) (name : Char) : Option Bool :=
  (Letter.slot? name).bind fun slot => env.slots[slot]

/-- Give values to several letters, one after the other. -/
def ofPairs (pairs : List (Char × Bool)) : Assignment :=
  pairs.foldl (fun env pair => env.set pair.1 pair.2) ∅

/-- The assignment that a minterm index spells, the first variable being its highest bit. -/
def ofIndex (vars : Variables) (index : Nat) : Assignment :=
  ofPairs (vars.names.zip (Minterm.bits vars.size index))

/-- The assignment in which the given letters are false and all others as they were. -/
def withFalse (env : Assignment) (names : List Char) : Assignment :=
  names.foldl (fun env name => env.set name false) env

/-- Each variable has the value of its bit in an index. -/
def Spells (env : Assignment) (vars : Variables) (index : Nat) : Prop :=
  ∀ position name, vars.names[position]? = some name →
    env.get? name = some (Minterm.bitAt index vars.size position)

/-- The letters that have a value, in alphabetical order, with their values. -/
def pairs (env : Assignment) : List (Char × Bool) :=
  (List.finRange Letter.alphabetSize).filterMap fun slot =>
    env.slots[slot].map fun value => (Letter.ofSlot slot, value)

/-- The number of letters that have a value. -/
def size (env : Assignment) : Nat :=
  env.pairs.length

/-- The assignment as a line of equations. -/
def text (env : Assignment) : String :=
  String.ofList ([' '].intercalate (env.pairs.map fun pair => [pair.1, '=', Text.bit pair.2]))

theorem get?_empty (name : Char) : (∅ : Assignment).get? name = none := by
  cases place : Letter.slot? name with
  | none => simp [get?, place]
  | some slot =>
    simp only [get?, place, Option.bind_some]
    exact Vector.getElem_replicate ..

/-- What is put at a letter is read back at that letter, and nothing else changes. -/
theorem get?_assign (env : Assignment) (name other : Char) (value : Option Bool) :
    (env.assign name value).get? other =
      if (Letter.slot? name).isSome ∧ Letter.slot? name = Letter.slot? other then value
      else env.get? other := by
  cases place : Letter.slot? name with
  | none => simp [assign, place]
  | some slot =>
    cases placeOther : Letter.slot? other with
    | none => simp [assign, get?, place, placeOther]
    | some slotOther =>
      simp only [assign, get?, place, placeOther, Option.bind_some, Option.isSome_some, true_and,
        Option.some.injEq, Fin.getElem_fin, Vector.getElem_set, Fin.ext_iff]

/-- Assignments that agree on every letter are equal. -/
theorem ext_get? {env other : Assignment} (same : ∀ name, env.get? name = other.get? name) :
    env = other := by
  obtain ⟨slots⟩ := env
  obtain ⟨slotsOther⟩ := other
  congr 1
  refine Vector.ext fun slot inside => ?_
  simpa [get?] using same (Letter.ofSlot ⟨slot, inside⟩)

end Assignment

end Switching
