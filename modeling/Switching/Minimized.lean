import Switching.Cover
import Switching.Form.Rendering
import Switching.PrimeSearch

/-! # Two-level minimization

A function is given by its minterms and its don't-care terms. The prime cubes of both together are
searched, and those that are needed to cover the minterms are selected. For a product of sums the
caller hands in the indices at which the function is false: the selected cubes are then written as
sums.
-/

namespace Switching

/-- The outcome of a minimization, with the steps that lead to it. -/
structure Minimized where
  /-- The form in which the selected cubes are written. -/
  form : Form
  /-- The variables of the function. -/
  vars : Variables
  /-- The prime cubes, in the order in which they were found. -/
  primes : CubeList
  /-- The primes that cover each required minterm. -/
  chart : Chart
  /-- The positions of the essential primes. -/
  essentials : List Nat
  /-- The positions of the selected primes, the essential ones first. -/
  chosen : List Nat
  /-- The selected primes. -/
  cover : List Cube
  /-- The value of a function that is known to be constant without any search. -/
  constant : Option Bool

namespace Minimized

/-- The outcome for a function without terms: nothing was searched. -/
def empty (form : Form) (vars : Variables) : Minimized where
  form := form
  vars := vars
  primes := ∅
  chart := ∅
  essentials := []
  chosen := []
  cover := []
  constant := none

/-- The outcome for a function that is known to be constant. -/
def ofConstant (form : Form) (vars : Variables) (value : Bool) : Minimized :=
  { empty form vars with constant := some value }

/-- The terms for which primes are searched: those that are minterms over the variables. -/
def terms (minterms dontcares : IndexSet) (vars : Variables) : IndexSet :=
  (minterms ∪ dontcares).filter (Minterm.inRange · vars.size)

/-- The minterms over the variables that have to be covered. A term that is also a don't-care need not
be. -/
def required (minterms dontcares : IndexSet) (vars : Variables) : IndexSet :=
  (minterms.diff dontcares).filter (Minterm.inRange · vars.size)

/-- The outcome when some primes were found and some minterms are required, by a test for what a cube
covers. -/
def ofPrimes (covers : Cube → Nat → Bool) (primes : CubeList) (required : IndexSet) (vars : Variables)
    (form : Form) : Minimized :=
  let chart := Chart.buildBy covers primes required
  let chosen := Cover.select covers primes chart
  { form := form
    vars := vars
    primes := primes
    chart := chart
    essentials := chart.essentials
    chosen := chosen
    cover := chosen.filterMap primes.get?
    constant := none }

/-- The outcome of a search. Terms that are no minterms over the variables are ignored. -/
def search (minterms dontcares : IndexSet) (vars : Variables) (form : Form) : Minimized :=
  let primes := PrimeSearch.primes (terms minterms dontcares vars) vars.size
  ofPrimes Cube.covers primes (required minterms dontcares vars) vars form

/-- The cubes written in a style, whether or not the function is known to be constant. -/
def render (m : Minimized) (style : Style) : String :=
  style.render m.form m.vars m.cover

/-- The minimized expression. -/
def text (m : Minimized) : String :=
  match m.constant with
  | some value => String.singleton (Text.bit value)
  | none => m.render .textbook

end Minimized

/-- Minimize a function. Without any terms there is nothing to search. Over more than 64 variables, `minimizeBy?`
tells what machine words do. -/
def minimize (minterms dontcares : IndexSet) (vars : Variables) (form : Form) : Minimized :=
  if minterms.isEmpty && dontcares.isEmpty then .empty form vars
  else .search minterms dontcares vars form

end Switching
