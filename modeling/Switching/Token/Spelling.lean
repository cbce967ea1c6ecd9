import Switching.Token.Lexer

/-! # How tokens are spelled

What a text stands for, character by character, and which of its characters stand for nothing. This says
what `readAll` does without any reference to how a text is read.
-/

namespace Switching.Token

/-- The characters of a text that are not blank. -/
def visible (text : String) : List Char :=
  text.toList.filter (!Text.isBlank ·)

/-- The characters other than letters that stand for a token of their own. -/
def signs : List (Char × Token) :=
  [('0', constant false), ('1', constant true), ('(', openParen), (')', closeParen),
    ('!', operator (.not .before)), ('~', operator (.not .before)),
    ('&', operator (.binary .and)), ('*', operator (.binary .and)),
    ('+', operator (.binary .or)), ('|', operator (.binary .or)), ('^', operator (.binary .xor))]

/-- The alphabet of expressions: letters, signs, and the apostrophe. -/
def InAlphabet (c : Char) : Prop :=
  c.isAlpha = true ∨ c ∈ signs.map Prod.fst ∨ c = '\''

/-- The number of apostrophes that characters begin with. -/
def apostrophes (chars : List Char) : Nat :=
  (chars.takeWhile (· = '\'')).length

/-- The negation that a letter is given by the apostrophes after it, if their number is odd. -/
def negation (rest : List Char) : List Token :=
  if apostrophes rest % 2 = 1 then [operator (.not .after)] else []

/-- What a character and the apostrophes after it stand for. An apostrophe by itself stands for
nothing. -/
def spelling (c : Char) (rest : List Char) : List Token :=
  if c.isAlpha then var c.toUpper :: negation rest else (signs.lookup c).toList

/-- What visible characters stand for. -/
def spelled : List Char → List Token
  | [] => []
  | c :: rest => spelling c rest ++ spelled rest

/-- The character before a position. -/
def previous? (chars : List Char) (position : Nat) : Option Char :=
  (chars.take position).getLast?

/-- A run of apostrophes starts at a position. -/
def StartsRun (chars : List Char) (position : Nat) : Prop :=
  chars[position]? = some '\'' ∧ previous? chars position ≠ some '\''

/-- A letter stands before a position. -/
def FollowsLetter (chars : List Char) (position : Nat) : Prop :=
  ∃ letter, previous? chars position = some letter ∧ letter.isAlpha = true

/-- The character at a position has no meaning there. -/
def IsOffence (chars : List Char) (position : Nat) : Prop :=
  (∃ c, chars[position]? = some c ∧ ¬ InAlphabet c) ∨
    StartsRun chars position ∧ ¬ FollowsLetter chars position

/-- Every apostrophe follows a letter; `letter` tells whether one stands before the first token. -/
def Attached : Bool → List Token → Prop
  | _, [] => True
  | letter, token :: rest =>
    (token = .operator (.not .after) → letter = true) ∧ Attached token.varName?.isSome rest

/-- Tokens that reading can yield. -/
structure Canonical (tokens : List Token) : Prop where
  /-- Variables are letters in upper case. -/
  upper : ∀ name, .var name ∈ tokens → name.isUpper = true
  /-- A negation written after its operand follows a variable. -/
  attached : Attached false tokens

/-- Characters print tokens: they are the symbols of the tokens, in order, among any blanks. -/
inductive Prints : List Char → List Token → Prop where
  | nil : Prints [] []
  | blank {c chars tokens} : Text.isBlank c = true → Prints chars tokens → Prints (c :: chars) tokens
  | symbol (token) {chars tokens} : Prints chars tokens →
      Prints (token.symbol :: chars) (token :: tokens)

end Switching.Token
