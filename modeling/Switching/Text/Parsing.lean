/-! # Parsing expressions

A parsing expression reads a beginning of a text and leaves the rest, or it fails. What was read is
never reconsidered: an optional part is read whenever it can be, and a repetition goes on for as long
as it can, whatever has to follow. Gaps are skipped between two parts of a sequence and before each
further part of a repetition.
-/

namespace Switching.Text

/-- What is read at the beginning of a text, with the rest of it; none for a failure. -/
abbrev Parsing (α : Type) := List Char → Option (α × List Char)

namespace Parsing

variable {α β : Type}

/-- A character of a kind. -/
def char (kind : Char → Bool) : Parsing Char
  | c :: rest => if kind c then some (c, rest) else none
  | [] => none

/-- All characters of a kind, of which there has to be one. No gap is skipped between them. -/
def word (kind : Char → Bool) : Parsing (List Char) := fun text =>
  if (text.takeWhile kind).isEmpty then none
  else some (text.takeWhile kind, text.dropWhile kind)

/-- The end of the text. -/
def ending : Parsing Unit
  | [] => some ((), [])
  | _ :: _ => none

/-- A part, turned into something else. -/
def map (f : α → β) (part : Parsing α) : Parsing β := fun text =>
  (part text).map fun (a, rest) => (f a, rest)

/-- A part that may be missing. -/
def optional (part : Parsing α) : Parsing (Option α) := fun text =>
  match part text with
  | some (a, rest) => some (some a, rest)
  | none => some (none, text)

/-- A part and another one after it. -/
def followedBy (gap : Char → Bool) (part : Parsing α) (next : Parsing β) : Parsing (α × β) :=
  fun text => do
    let (a, rest) ← part text
    let (b, rest) ← next (rest.dropWhile gap)
    return ((a, b), rest)

/-- All further occurrences of a part. One that reads nothing ends the repetition. -/
def further (gap : Char → Bool) (part : Parsing α) (text : List Char) : List α × List Char :=
  match part (text.dropWhile gap) with
  | some (a, rest) =>
    if rest.length < text.length then
      let (others, last) := further gap part rest
      (a :: others, last)
    else ([], text)
  | none => ([], text)
termination_by text.length

/-- A part any number of times. -/
def repeated (gap : Char → Bool) (part : Parsing α) : Parsing (List α) := fun text =>
  match part text with
  | some (a, rest) =>
    let (others, last) := further gap part rest
    some (a :: others, last)
  | none => some ([], text)

end Parsing

end Switching.Text
