import Mathlib.Data.List.Forall2
import Switching.Proofs.Formula
import Switching.Proofs.Outcome

/-! # Evaluation rebuilds a syntax tree

Every value on the stack is that of a syntax tree, and together the trees hold the tokens that have
been evaluated, in their order: a token either becomes a tree of its own or the root above the topmost
ones (`exists_trees_of_step`). So an expression has a value only if its tokens are the postorder of
one tree, and the value is that of the tree (`eval_eq_ok_iff_postorder`).
-/

namespace Switching

variable {env : Assignment}

namespace Formula

/-- The tokens of the trees on a stack from its bottom to its top, each tree in postorder. -/
def stackTokens (trees : List Formula) : List Token :=
  trees.reverse.flatMap postorder

@[simp] theorem stackTokens_cons (f : Formula) (trees : List Formula) :
    stackTokens (f :: trees) = stackTokens trees ++ f.postorder := by
  simp [stackTokens]

/-- Trees have the values on a stack. -/
abbrev HaveValues (env : Assignment) : List Formula → List Bool → Prop :=
  List.Forall₂ fun f value => f.eval? env = some value

end Formula

namespace Expression

open Formula

variable {token : Token} {tokens : List Token} {stack next result : List Bool}
  {trees : List Formula}

/-- A token becomes the root of the topmost tree. -/
theorem exists_trees_of_step (valued : HaveValues env trees stack)
    (success : step env stack token = .ok next) :
    ∃ later, HaveValues env later next ∧ stackTokens later = stackTokens trees ++ [token] := by
  rcases step_cases success with ⟨value, rfl | ⟨name, rfl, found⟩, rfl⟩ |
    ⟨side, a, rest, rfl, rfl, rfl⟩ | ⟨connective, a, b, rest, rfl, rfl, rfl⟩
  · exact ⟨.constant value :: trees, .cons rfl valued, stackTokens_cons ..⟩
  · exact ⟨.var name :: trees, .cons found valued, stackTokens_cons ..⟩
  · obtain ⟨f, others, body, below, rfl⟩ := List.forall₂_cons_right_iff.mp valued
    refine ⟨.not side f :: others, .cons ?_ below, ?_⟩
    · rw [eval?, body, Option.map_some]
    · simp [postorder]
  · obtain ⟨g, under, right, lower, rfl⟩ := List.forall₂_cons_right_iff.mp valued
    obtain ⟨f, others, left, below, rfl⟩ := List.forall₂_cons_right_iff.mp lower
    refine ⟨.binary connective f g :: others, .cons ?_ below, ?_⟩
    · rw [eval?_binary, left, right, Option.bind_some, Option.map_some]
    · simp [postorder]

/-- A run turns its tokens into trees on top of those that were there before. -/
theorem exists_trees_of_run (valued : HaveValues env trees stack)
    (success : run env tokens stack = .ok result) :
    ∃ later, HaveValues env later result ∧ stackTokens later = stackTokens trees ++ tokens := by
  induction tokens generalizing trees stack with
  | nil =>
    cases success
    exact ⟨trees, valued, (List.append_nil _).symm⟩
  | cons token rest ih =>
    rw [run_cons] at success
    obtain ⟨next, first, later⟩ := bind_eq_ok_iff.mp success
    obtain ⟨grown, valued, spelled⟩ := exists_trees_of_step valued first
    obtain ⟨final, valued, whole⟩ := ih valued later
    refine ⟨final, valued, ?_⟩
    rw [whole, spelled, List.append_assoc, List.singleton_append]

/-- The tokens of an expression with a value are the postorder of a tree with that value. -/
theorem exists_tree_of_eval {e : Expression} {value : Bool} (success : e.eval env = .ok value) :
    ∃ f : Formula, f.postorder = e.tokens ∧ f.eval? env = some value := by
  obtain ⟨trees, valued, spelled⟩ := exists_trees_of_run .nil (eval_eq_ok_iff.mp success)
  obtain ⟨f, others, first, below, rfl⟩ := List.forall₂_cons_right_iff.mp valued
  obtain rfl := List.forall₂_nil_right_iff.mp below
  exact ⟨f, by simpa [stackTokens] using spelled, first⟩

/-- Whatever its tokens and the values of its variables, an expression has a value if and only if the
tokens are the postorder of a syntax tree whose variables all have one. There is no other such tree,
and the value is that of the tree. -/
theorem eval_eq_ok_iff_postorder (tokens : List Token) (env : Assignment) (value : Bool) :
    (Expression.mk tokens).eval env = .ok value ↔
      ∃ f : Formula, f.postorder = tokens ∧ (∀ g : Formula, g.postorder = tokens → g = f) ∧
        (∀ name ∈ f.varNames, (env.get? name).isSome = true) ∧ f.eval? env = some value := by
  constructor
  · intro success
    obtain ⟨f, spelled, valued⟩ := exists_tree_of_eval success
    refine ⟨f, spelled, fun g same => ?_, fun name member => ?_, valued⟩
    · exact postorder_injective (same.trans spelled.symm)
    · exact isSome_get?_of_eval? valued member
  · rintro ⟨f, rfl, _, _, valued⟩
    exact eval_postorder valued

end Expression

end Switching
