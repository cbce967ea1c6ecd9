import Switching.Form.Rendering
import Switching.Proofs.Assignment
import Switching.Proofs.Formula.Chain
import Switching.Proofs.Pattern.Coverage

/-! # The tree of a two-level form

A form is a chain of terms and a term is a chain of literals. A sum of products is true at the indices
that some cube covers. A product of sums is false there, except that a cube without fixed positions
does not count: it is written as the constant 1 (`eval?_tree`).
-/

namespace Switching.Form

/-- The connective between the literals of a term. -/
def inner : Form → Connective
  | sop => .and
  | pos => .or

/-- The connective between the terms. -/
def outer : Form → Connective
  | sop => .or
  | pos => .and

def literalTree (form : Form) (side : Side) (vars : Variables) (entry : Nat × Bool) : Formula :=
  let letter := .var (vars.names[entry.1]?.getD '?')
  if form.complements entry.2 then .not side letter else letter

def termTree (form : Form) (side : Side) (vars : Variables) (c : Cube) : Formula :=
  if c.pattern.fixed = [] then .constant true
  else .chain form.inner (c.pattern.fixed.map (form.literalTree side vars))

def tree (form : Form) (side : Side) (vars : Variables) (cubes : List Cube) : Formula :=
  .chain form.outer (cubes.map (form.termTree side vars))

variable {vars : Variables}

/-- A literal is true if its variable is, and the other way round if it is complemented. -/
theorem eval?_literalTree (form : Form) (side : Side) (lettered : vars.Lettered) (index : Nat)
    {entry : Nat × Bool} (inside : entry.1 < vars.size) :
    (form.literalTree side vars entry).eval? (.ofIndex vars index) =
      some (Minterm.bitAt index vars.size entry.1 ^^ form.complements entry.2) := by
  have listed : vars.names[entry.1]? = some vars.names[entry.1] := List.getElem?_eq_getElem inside
  have letter := Assignment.get?_ofIndex lettered index listed
  rw [literalTree, listed, Option.getD_some]
  cases form.complements entry.2 with
  | true => simp [Formula.eval?, letter]
  | false => simp [Formula.eval?, letter]

theorem agrees_eq_all (p : Pattern) (index : Nat) : p.agrees index =
    p.fixed.all fun entry => Minterm.bitAt index p.length entry.1 == entry.2 := by
  rw [Bool.eq_iff_iff, Pattern.agrees_iff_fixed, List.all_eq_true]
  simp only [beq_iff_eq]

theorem xor_not_eq_beq (a b : Bool) : (a ^^ !b) = (a == b) := by
  cases a <;> cases b <;> rfl

theorem eval?_termTree (form : Form) (side : Side) (lettered : vars.Lettered) (index : Nat)
    {c : Cube} (wide : c.width = vars.size) :
    (form.termTree side vars c).eval? (.ofIndex vars index) = some (form.termValue c index) := by
  have literals : ∀ entry ∈ c.pattern.fixed,
      (form.literalTree side vars entry).eval? (.ofIndex vars index) =
        some (Minterm.bitAt index vars.size entry.1 ^^ form.complements entry.2) :=
    fun entry member => eval?_literalTree form side lettered index
      (wide ▸ Pattern.lt_of_mem_fixed member)
  have agrees := agrees_eq_all c.pattern index
  rw [show c.pattern.length = vars.size from wide] at agrees
  rw [termTree]
  split
  · next free =>
    cases form with
    | sop => rw [termValue, agrees, free]; rfl
    | pos => rw [termValue, free]; rfl
  · next fixed =>
    cases form with
    | sop =>
      rw [inner, Formula.eval?_conjunction literals, termValue, agrees]
      congr 2
      funext entry
      exact xor_not_eq_beq ..
    | pos =>
      rw [inner, Formula.eval?_disjunction literals, termValue, agrees, List.not_all_eq_any_not,
        List.isEmpty_eq_false_iff.mpr fixed, Bool.false_or]
      rfl

theorem eval?_tree (form : Form) (side : Side) (lettered : vars.Lettered) (index : Nat)
    {cubes : List Cube} (wide : ∀ c ∈ cubes, c.width = vars.size) :
    (form.tree side vars cubes).eval? (.ofIndex vars index) = some (form.value cubes index) := by
  have terms : ∀ c ∈ cubes, (form.termTree side vars c).eval? (.ofIndex vars index) =
      some (form.termValue c index) :=
    fun c member => eval?_termTree form side lettered index (wide c member)
  cases form with
  | sop => exact Formula.eval?_disjunction terms
  | pos => exact Formula.eval?_conjunction terms

end Switching.Form
