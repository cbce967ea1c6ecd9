import Switching.Fault
import Switching.Text.Character

/-! # Reading tokens

An expression is read one character at a time, after its blanks are removed. Every character is a
token of its own, except for apostrophes: a run of them after a letter is one negation if its length
is odd and nothing at all if it is even, and no apostrophe may stand elsewhere.
-/

namespace Switching.Token

/-- The token that a character other than an apostrophe stands for, a letter in upper case. -/
def ofChar? : Char → Option Token
  | '0' => some (constant false)
  | '1' => some (constant true)
  | '(' => some openParen
  | ')' => some closeParen
  | '!' | '~' => some (operator (.not .before))
  | '&' | '*' => some (operator (.binary .and))
  | '+' | '|' => some (operator (.binary .or))
  | '^' => some (operator (.binary .xor))
  | c => if c.isAlpha then some (var c.toUpper) else none

/-- What the apostrophes read since the last letter amount to. -/
inductive Marks where
  /-- The last token is not a letter, and no apostrophe may follow it. -/
  | closed
  /-- An even number of apostrophes, possibly none. -/
  | even
  /-- An odd number of apostrophes. -/
  | odd
deriving DecidableEq, Repr

namespace Marks

/-- One more apostrophe. -/
def next? : Marks → Option Marks
  | closed => none
  | even => some odd
  | odd => some even

/-- The tokens that a finished run of apostrophes stands for. -/
def tokens : Marks → List Token
  | odd => [operator (.not .after)]
  | _ => []

end Marks

/-- Apostrophes may follow a letter only. -/
def marks : Token → Marks
  | var _ => .even
  | _ => .closed

/-- Read the characters from a position on, `marks` being what stands before them. -/
def scan (position : Nat) (marks : Marks) : List Char → Except Fault (List Token)
  | [] => .ok marks.tokens
  | c :: rest =>
    if c = '\'' then
      match marks.next? with
      | some marks => scan (position + 1) marks rest
      | none => .error (.unexpectedChar c position)
    else
      match ofChar? c with
      | some token => (scan (position + 1) token.marks rest).map (marks.tokens ++ token :: ·)
      | none => .error (.unexpectedChar c position)

/-- The tokens of an expression, or the first character that has no meaning where it stands. -/
def readAll (text : String) : Except Fault (List Token) :=
  scan 0 .closed (text.toList.filter (!Text.isBlank ·))

end Switching.Token
