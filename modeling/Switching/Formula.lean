import Switching.Expression

/-! # Syntax trees

What an expression means is told by its syntax tree: `eval?` computes the value of a tree directly,
by the Boolean operations its symbols stand for, and `postorder` lists its tokens, operands before
operators. The operation that evaluation carries out for a connective is the one it stands for
(`eval?_binary`), and evaluating the list gives the value of the tree (`eval_postorder`).
-/

namespace Switching

/-- A syntax tree. -/
inductive Formula where
  | constant (value : Bool)
  | var (name : Char)
  | not (side : Side) (body : Formula)
  | binary (connective : Connective) (left right : Formula)
deriving DecidableEq, Repr

namespace Formula

/-- The value of a tree; none if a variable has no value. A conjunction is true if both operands are,
a disjunction if one of them is, and an exclusive disjunction if just one of them is. -/
def eval? (env : Assignment) : Formula → Option Bool
  | constant value => some value
  | var name => env.get? name
  | not _ body => (body.eval? env).map (! ·)
  | binary .and left right => (left.eval? env).bind fun a => (right.eval? env).map (a && ·)
  | binary .or left right => (left.eval? env).bind fun a => (right.eval? env).map (a || ·)
  | binary .xor left right => (left.eval? env).bind fun a => (right.eval? env).map (a != ·)

/-- The tokens of a tree in postfix order. -/
def postorder : Formula → List Token
  | constant value => [.constant value]
  | var name => [.var name]
  | not side body => body.postorder ++ [.operator (.not side)]
  | binary connective left right =>
    left.postorder ++ right.postorder ++ [.operator (.binary connective)]

/-- The variables of a tree, from left to right. -/
def varNames : Formula → List Char
  | constant _ => []
  | var name => [name]
  | not _ body => body.varNames
  | binary _ left right => left.varNames ++ right.varNames

/-- What evaluation does for a connective has the value of the tree. -/
theorem eval?_binary (env : Assignment) (connective : Connective) (left right : Formula) :
    (binary connective left right).eval? env =
      (left.eval? env).bind fun a => (right.eval? env).map (connective.apply a) := by
  cases connective with
  | and => rfl
  | or => rfl
  | xor => rfl

/-- The tokens of a tree put its value on the stack and leave the rest of the stack alone. -/
theorem run_postorder {env : Assignment} {f : Formula} {value : Bool}
    (valued : f.eval? env = some value) (stack : List Bool) :
    Expression.run env f.postorder stack = .ok (value :: stack) := by
  induction f generalizing value stack with
  | constant b =>
    obtain rfl := Option.some.inj valued
    rfl
  | var name =>
    change env.get? name = some value at valued
    simp only [postorder, Expression.run, List.foldlM_cons, List.foldlM_nil, Expression.step,
      valued]
    rfl
  | not side body ih =>
    obtain ⟨a, inner, rfl⟩ := Option.map_eq_some_iff.mp valued
    rw [postorder, Expression.run_append, ih inner]
    rfl
  | binary connective left right leftIH rightIH =>
    rw [eval?_binary] at valued
    obtain ⟨a, first, rest⟩ := Option.bind_eq_some_iff.mp valued
    obtain ⟨b, second, rfl⟩ := Option.map_eq_some_iff.mp rest
    rw [postorder, Expression.run_append, Expression.run_append, leftIH first]
    change Expression.run env right.postorder (a :: stack) >>= _ = _
    rw [rightIH second]
    rfl

/-- The value of a tree is that of its tokens. -/
theorem eval_postorder {env : Assignment} {f : Formula} {value : Bool}
    (valued : f.eval? env = some value) : (Expression.mk f.postorder).eval env = .ok value :=
  Expression.eval_eq_ok_iff.mpr (run_postorder valued [])

end Formula

end Switching
