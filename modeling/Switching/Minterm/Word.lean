import Switching.Minterm

/-! # Indices in a machine word

The operations on indices as they are carried out on words of 64 bits. A word cannot be shifted by all
of its bits or more, and there is no bit at a position beyond the variables; such a request has no
result. A program can also be built so that a shift by too much is not refused but takes the amount
modulo the number of bits (`Shift`).
-/

namespace Switching.Minterm

/-- What becomes of a shift by all bits of a word or more. -/
inductive Shift where
  /-- It is refused. -/
  | checked
  /-- The amount counts modulo the number of bits. -/
  | wrapping
deriving DecidableEq, Repr

namespace Word

/-- Drop some of the last bits of a word. -/
def shiftRight? (word : UInt64) (amount : Nat) : Option UInt64 :=
  if amount < wordSize then some (word >>> UInt64.ofNat amount) else none

/-- The value of the variable at a position: the last bit once those behind it are dropped. -/
def bitAt? (index : UInt64) (width position : Nat) : Option Bool :=
  if position < width then
    (shiftRight? index (width - 1 - position)).map fun rest => rest &&& 1 == 1
  else none

/-- The value of the variable at a position as it is read with either kind of shifts. The processor takes
the amount of a shift modulo the number of bits. -/
def bitBy? (shift : Shift) (index : UInt64) (width position : Nat) : Option Bool :=
  match shift with
  | .checked => bitAt? index width position
  | .wrapping =>
    if position < width then some (index >>> UInt64.ofNat (width - 1 - position) &&& 1 == 1) else none

/-- The index that a list of bits spells. Each bit is put behind those that came before it. -/
def ofBits (bits : List Bool) : UInt64 :=
  bits.foldl (fun index bit => index <<< 1 ||| bit.toUInt64) 0

/-- Whether an index is a minterm over a number of variables: without as many bits nothing is left. -/
def inRange? (index : UInt64) (width : Nat) : Option Bool :=
  if wordSize ≤ width then some true else (shiftRight? index width).map (· == 0)

end Word

end Switching.Minterm
