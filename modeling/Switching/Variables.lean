import Switching.Fault
import Switching.Letter

/-! # Lists of variables

The order of the variables of a function fixes the position of each one in truth tables, cubes and
Karnaugh maps: the first variable is the most significant bit of an index. A list that is built by
`push`, `ofString` or `alphabetic` holds distinct letters in upper case. The variables of an
expression that was put together by hand are listed as they stand there, whatever their characters.
-/

namespace Switching

/-- The entries at the positions that are kept. -/
def pick {α : Type} : List Bool → List α → List α
  | [], _ => []
  | _ :: _, [] => []
  | false :: kept, _ :: rest => pick kept rest
  | true :: kept, a :: rest => a :: pick kept rest

/-- The entries at the positions that are kept, and a filler at all others. -/
def spread {α : Type} (filler : α) : List Bool → List α → List α
  | [], _ => []
  | false :: kept, list => filler :: spread filler kept list
  | true :: kept, [] => filler :: spread filler kept []
  | true :: kept, a :: rest => a :: spread filler kept rest

/-- An ordered list of variables. -/
structure Variables where
  /-- The characters that name the variables, in order. -/
  names : List Char
deriving DecidableEq

namespace Variables

instance : EmptyCollection Variables := ⟨⟨[]⟩⟩

instance : Inhabited Variables := ⟨∅⟩

/-- The number of variables. -/
def size (vars : Variables) : Nat :=
  vars.names.length

/-- The names are distinct letters in upper case. -/
def Lettered (vars : Variables) : Prop :=
  vars.names.Nodup ∧ ∀ name ∈ vars.names, name.isUpper = true

instance (vars : Variables) : Decidable vars.Lettered :=
  have : Decidable (∀ name ∈ vars.names, name.isUpper = true) := List.decidableBAll ..
  inferInstanceAs (Decidable (_ ∧ _))

/-- What names a letter of some other variables, in either case, are these variables in their order. All
other characters may stand anywhere between them. -/
def Includes (vars old : Variables) : Prop :=
  vars.names.filter (·.toUpper ∈ old.names) = old.names

instance (vars old : Variables) : Decidable (vars.Includes old) :=
  inferInstanceAs (Decidable (_ = _))

/-- Which variables of a list are old ones, the others being added. -/
def keeps (old new : Variables) : List Bool :=
  new.names.map (decide <| · ∈ old.names)

/-- The first letters of the alphabet. -/
def alphabetic (count : Nat) : Except Fault Variables :=
  if Letter.alphabetSize < count then .error (.tooManyVariables count Letter.alphabetSize)
  else .ok ⟨Letter.alphabet.take count⟩

/-- Append a variable. Its name is a letter, in either case, that is not in the list yet. -/
def push (vars : Variables) (name : Char) : Except Fault Variables :=
  if !name.isAlpha then .error (.invalidName (String.singleton name))
  else if name.toUpper ∈ vars.names then .error (.conflictingName (String.singleton name.toUpper))
  else .ok ⟨vars.names ++ [name.toUpper]⟩

/-- Append a word of letters, each of them a variable. -/
def pushWord (vars : Variables) (word : List Char) : Except Fault Variables :=
  if word.all Char.isAlpha then word.foldlM push vars
  else .error (.invalidName (String.ofList word))

/-- The characters that separate words of letters. -/
def isSeparator (c : Char) : Bool :=
  c = ' ' || c = ',' || c = ';'

/-- Read a list of variables: words of letters between separators, each letter a variable. -/
def ofString (text : String) : Except Fault Variables :=
  ((text.toList.splitOnP isSeparator).filter (!·.isEmpty)).foldlM pushWord ∅

/-- The list with one more variable, or as it is if the name cannot be appended. -/
def pushed (vars : Variables) (name : Char) : Variables :=
  (vars.push name).toOption.getD vars

/-- The lists that are read or alphabetic, and what becomes of them when names are appended. -/
inductive Built : Variables → Prop where
  | ofString {text : String} {vars : Variables} : ofString text = .ok vars → Built vars
  | alphabetic {count : Nat} {vars : Variables} : alphabetic count = .ok vars → Built vars
  | pushed {vars : Variables} (name : Char) : Built vars → Built (vars.pushed name)

/-- The position of a variable, whose letter may be in either case. -/
def position? (vars : Variables) (name : Char) : Option Nat :=
  vars.names.idxOf? name.toUpper

/-- The names separated by commas. -/
def text (vars : Variables) : String :=
  String.ofList ([',', ' '].intercalate (vars.names.map ([·])))

/-- The names in one word. -/
def word (vars : Variables) : String :=
  String.ofList vars.names

end Variables

end Switching
