import Switching.Cube
import Switching.Minterm.Word

/-! # Cubes and machine words

The operations on cubes that read the bits of an index, as they are carried out on words. Over more
variables than a word has bits, such an operation is refused or reads some bits for several variables,
depending on how shifts are carried out.
-/

namespace Switching.Cube

open Minterm

/-- The cube of a single minterm, whose bits are read off a word one after the other. -/
def ofWord? (shift : Shift) (index width : Nat) : Option Cube :=
  ((List.range width).mapM (Word.bitBy? shift (.ofNat index) width)).map fun bits =>
    ⟨bits.map some, .singleton index⟩

/-- Whether a word has all fixed values of a cube. A bit that cannot be read has no value; it is not asked
for, since a shift that is refused for a cube was refused when its minterms were made into cubes. -/
def coversBy (shift : Shift) (c : Cube) (index : Nat) : Bool :=
  inRange index c.width &&
    c.pattern.fixed.all fun entry => Word.bitBy? shift (.ofNat index) c.width entry.1 == some entry.2

end Switching.Cube
