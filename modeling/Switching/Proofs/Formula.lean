import Switching.Formula.Grammar

/-! # Trees and their tokens

A tree can be read back from its postorder (`postorder_injective`), and it has a value if and only if
all of its variables have one (`exists_value`, `isSome_get?_of_eval?`).
-/

namespace Switching.Formula

/-- Read trees in postorder onto a stack of trees. -/
def rebuild : List Formula → List Token → Option (List Formula)
  | stack, [] => some stack
  | stack, .constant value :: rest => rebuild (.constant value :: stack) rest
  | stack, .var name :: rest => rebuild (.var name :: stack) rest
  | f :: stack, .operator (.not side) :: rest => rebuild (.not side f :: stack) rest
  | g :: f :: stack, .operator (.binary connective) :: rest =>
    rebuild (.binary connective f g :: stack) rest
  | _, _ => none

theorem rebuild_postorder (f : Formula) (stack : List Formula) (rest : List Token) :
    rebuild stack (f.postorder ++ rest) = rebuild (f :: stack) rest := by
  induction f generalizing stack rest with
  | constant _ => rfl
  | var _ => rfl
  | not side body ih =>
    rw [postorder, List.append_assoc, ih]
    rfl
  | binary connective left right leftIH rightIH =>
    rw [postorder, List.append_assoc, List.append_assoc, leftIH, rightIH]
    rfl

/-- Trees with the same tokens are equal. -/
theorem postorder_injective {f g : Formula} (same : f.postorder = g.postorder) : f = g := by
  have first := rebuild_postorder f [] []
  rw [same, rebuild_postorder] at first
  exact (List.singleton_inj.mp (Option.some.inj first)).symm

/-- A tree has a value if all of its variables have one. -/
theorem exists_value {f : Formula} {env : Assignment}
    (assigned : ∀ name ∈ f.varNames, (env.get? name).isSome = true) :
    ∃ value, f.eval? env = some value := by
  induction f with
  | constant value => exact ⟨value, rfl⟩
  | var name => exact Option.isSome_iff_exists.mp (assigned name (List.mem_singleton_self name))
  | not side body ih =>
    obtain ⟨value, valued⟩ := ih assigned
    exact ⟨!value, by rw [eval?, valued, Option.map_some]⟩
  | binary connective left right leftIH rightIH =>
    obtain ⟨a, first⟩ := leftIH fun name member => assigned name (List.mem_append_left _ member)
    obtain ⟨b, second⟩ := rightIH fun name member => assigned name (List.mem_append_right _ member)
    exact ⟨connective.apply a b, by
      rw [eval?_binary, first, second, Option.bind_some, Option.map_some]⟩

/-- No variable of a tree with a value lacks one. -/
theorem isSome_get?_of_eval? {f : Formula} {env : Assignment} {value : Bool} {name : Char}
    (valued : f.eval? env = some value) (member : name ∈ f.varNames) :
    (env.get? name).isSome = true := by
  induction f generalizing value with
  | constant _ => exact absurd member List.not_mem_nil
  | var other =>
    obtain rfl := List.mem_singleton.mp member
    exact Option.isSome_of_eq_some valued
  | not side body ih =>
    obtain ⟨inner, first, _⟩ := Option.map_eq_some_iff.mp valued
    exact ih first member
  | binary connective left right leftIH rightIH =>
    rw [eval?_binary] at valued
    obtain ⟨a, first, rest⟩ := Option.bind_eq_some_iff.mp valued
    obtain ⟨b, second, _⟩ := Option.map_eq_some_iff.mp rest
    rcases List.mem_append.mp member with member | member
    · exact leftIH first member
    · exact rightIH second member

/-- The variables of a tree stand among the tokens that spell it. -/
theorem mem_of_mem_varNames {level : Level} {tokens : List Token} {f : Formula} {name : Char}
    (spells : Spells level tokens f) (member : name ∈ f.varNames) : .var name ∈ tokens := by
  induction spells with
  | constant _ => exact absurd member List.not_mem_nil
  | var other =>
    obtain rfl := List.mem_singleton.mp member
    exact List.mem_singleton_self _
  | paren _ ih => simp [ih member]
  | primary _ ih => exact ih member
  | marked _ ih => exact ih member
  | negated _ ih => exact ih member
  | product _ ih => exact ih member
  | parity _ ih => exact ih member
  | notAfter _ ih => simp [ih member]
  | notBefore _ ih => simp [ih member]
  | and _ _ left right => rcases List.mem_append.mp member with h | h <;> simp [left, right, h]
  | juxtapose _ _ left right => rcases List.mem_append.mp member with h | h <;> simp [left, right, h]
  | xor _ _ left right => rcases List.mem_append.mp member with h | h <;> simp [left, right, h]
  | or _ _ left right => rcases List.mem_append.mp member with h | h <;> simp [left, right, h]

end Switching.Formula
