import Switching.Cube.Word
import Switching.Minimized
import Switching.PrimeSearch.Loop

/-! # Two-level minimization of machine words

Minimization with its tables and with the terms as machine words, which is what a program carries out.
Up to 64 variables it does what `minimize` does with numbers. Over more variables, the first term that
is made into a cube asks for a shift by all bits of a word, which is refused or not depending on how the
program was built.
-/

namespace Switching

open Minterm

/-- The prime cubes of a set of words, in the order in which the search with tables finds them. It has
at most one round for each group of the first one. -/
def PrimeSearch.primesBy? (shift : Shift) (terms : IndexSet) (width : Nat) : Option CubeList := do
  let cubes ← terms.toList.mapM (Cube.ofWord? shift · width)
  let groups ← cubes.foldlM file? (List.replicate (width + 1) [])
  search? (width + 1) groups ∅

/-- Minimize a function whose terms are machine words. There is no outcome if a shift is refused. -/
def minimizeBy? (shift : Shift) (minterms dontcares : IndexSet) (vars : Variables) (form : Form) :
    Option Minimized :=
  if minterms.isEmpty && dontcares.isEmpty then some (.empty form vars)
  else
    (PrimeSearch.primesBy? shift (Minimized.terms minterms dontcares vars) vars.size).map fun primes =>
      .ofPrimes (Cube.coversBy shift) primes (Minimized.required minterms dontcares vars) vars form

end Switching
