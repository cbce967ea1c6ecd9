import Switching.Proofs.Expression.Expansion
import Switching.Proofs.Expression.Reordering
import Switching.Proofs.Token.Printing

/-! # The variables of an expression

The value of an expression depends on its variables only (`eval_congr`), and there is none unless
each of them has a value (`isSome_get?_of_eval`). The variables are listed in the order of their code
points (`sorted_vars`), and those of an expression that was read are letters in upper case
(`lettered_vars`).
-/

namespace Switching

variable {name : Char} {tokens : List Token}

namespace Expression

variable {e : Expression} {env other : Assignment} {names : List Char} {text : String}

theorem mem_vars : name ∈ e.vars.names ↔ .var name ∈ e.tokens := by
  rw [vars, mem_sortedNames, List.mem_filterMap]
  constructor
  · rintro ⟨token, member, same⟩
    cases token <;> cases same
    exact member
  · exact fun member => ⟨_, member, rfl⟩

/-- The names follow each other in the order of their code points. -/
theorem sorted_sortedNames (names : List Char) : (sortedNames names).Pairwise (· < ·) := by
  rw [sortedNames, List.pairwise_map]
  refine (IndexSet.ofList (names.map Char.toNat)).sorted.imp_of_mem fun left right below => ?_
  obtain ⟨a, _, rfl⟩ := List.mem_map.mp (IndexSet.mem_ofList.mp left)
  obtain ⟨b, _, rfl⟩ := List.mem_map.mp (IndexSet.mem_ofList.mp right)
  rw [Char.ofNat_toNat, Char.ofNat_toNat]
  exact below

theorem sorted_vars (e : Expression) : e.vars.names.Pairwise (· < ·) :=
  sorted_sortedNames _

/-! ## Variables that were read -/

theorem mem_of_mem_expand {ended : Bool} (member : .var name ∈ expand ended tokens) :
    .var name ∈ tokens := by
  induction tokens generalizing ended with
  | nil => exact member
  | cons token rest ih =>
    rcases List.mem_append.mp member with linked | listed
    · rw [link] at linked
      split at linked <;> simp at linked
    · rcases List.mem_cons.mp listed with rfl | later
      · exact List.mem_cons_self
      · exact List.mem_cons_of_mem _ (ih later)

/-- The variables of an expression stand in the text that it was read from. -/
theorem mem_of_ofInfix (success : ofInfix tokens = .ok e) (member : name ∈ e.vars.names) :
    .var name ∈ tokens := by
  have listed : .var name ∈ (insertProducts tokens).filter (!isParen ·) :=
    (perm_ofInfix success).mem_iff.mp (mem_vars.mp member)
  rw [insertProducts_eq] at listed
  exact mem_of_mem_expand (List.mem_filter.mp listed).1

theorem lettered_vars (success : parse text = .ok e) : e.vars.Lettered := by
  rw [parse] at success
  obtain ⟨tokens, read, ordered⟩ := bind_eq_ok_iff.mp success
  refine ⟨(sorted_vars e).imp ne_of_lt, fun name member => ?_⟩
  exact (Token.canonical_of_readAll read).upper name (mem_of_ofInfix ordered member)

/-! ## Values of variables -/

theorem run_congr (same : ∀ name, .var name ∈ tokens → env.get? name = other.get? name)
    (stack : List Bool) : run env tokens stack = run other tokens stack := by
  induction tokens generalizing stack with
  | nil => rfl
  | cons token rest ih =>
    have first : step env stack token = step other stack token := by
      match token with
      | .var name => simp only [step, same name List.mem_cons_self]
      | .constant _ | .operator (.not _) | .operator (.binary _) | .openParen | .closeParen => rfl
    have later := ih fun name member => same name (List.mem_cons_of_mem _ member)
    rw [run_cons, run_cons, first, funext later]

/-- Only the values of its variables matter to an expression. -/
theorem eval_congr (same : ∀ name ∈ e.vars.names, env.get? name = other.get? name) :
    e.eval env = e.eval other := by
  rw [eval, eval, run_congr fun name member => same name (mem_vars.mpr member)]

theorem isSome_get?_of_run {stack result : List Bool} (success : run env tokens stack = .ok result)
    (member : .var name ∈ tokens) : (env.get? name).isSome = true := by
  induction tokens generalizing stack with
  | nil => exact absurd member List.not_mem_nil
  | cons token rest ih =>
    rw [run_cons] at success
    obtain ⟨next, first, later⟩ := bind_eq_ok_iff.mp success
    rcases List.mem_cons.mp member with rfl | listed
    · rw [step] at first
      split at first
      · next value => exact Option.isSome_of_eq_some value
      · cases first
    · exact ih later listed

/-- An expression with a value has no variable without one. -/
theorem isSome_get?_of_eval {value : Bool} (success : e.eval env = .ok value)
    (member : name ∈ e.vars.names) : (env.get? name).isSome = true :=
  isSome_get?_of_run (eval_eq_ok_iff.mp success) (mem_vars.mp member)

end Expression

end Switching
