import Switching.Formula

/-! # Chains of one connective

A chain joins trees from the left by one connective, and has the value of a left fold
(`eval?_chain`): a conjunction is true if all of its trees are, a disjunction if some tree is.
-/

namespace Switching

/-- The value that does not matter to a connective. -/
def Connective.unit (connective : Connective) : Bool :=
  connective == .and

theorem Connective.unit_apply (connective : Connective) (value : Bool) :
    connective.apply connective.unit value = value := by
  cases connective <;> cases value <;> rfl

namespace Formula

/-- Trees joined from the left. -/
def chain (connective : Connective) : List Formula → Formula
  | [] => .constant connective.unit
  | f :: rest => rest.foldl (.binary connective) f

variable {α : Type} {env : Assignment} {connective : Connective} {items : List α}
  {tree : α → Formula} {value : α → Bool}

theorem eval?_foldl {f : Formula} {start : Bool} (first : f.eval? env = some start)
    (valued : ∀ a ∈ items, (tree a).eval? env = some (value a)) :
    ((items.map tree).foldl (.binary connective) f).eval? env =
      some (items.foldl (fun total a => connective.apply total (value a)) start) := by
  induction items generalizing f start with
  | nil => exact first
  | cons a items ih =>
    have joined : (Formula.binary connective f (tree a)).eval? env =
        some (connective.apply start (value a)) := by
      rw [eval?_binary, first, valued a (List.mem_cons_self ..), Option.bind_some, Option.map_some]
    exact ih joined fun b member => valued b (List.mem_cons_of_mem _ member)

theorem eval?_chain (valued : ∀ a ∈ items, (tree a).eval? env = some (value a)) :
    (chain connective (items.map tree)).eval? env =
      some (items.foldl (fun total a => connective.apply total (value a)) connective.unit) := by
  cases items with
  | nil => rfl
  | cons a items =>
    rw [List.foldl_cons, Connective.unit_apply]
    exact eval?_foldl (valued a (List.mem_cons_self ..))
      fun b member => valued b (List.mem_cons_of_mem _ member)

theorem foldl_and (start : Bool) :
    items.foldl (fun total a => Connective.and.apply total (value a)) start =
      (start && items.all value) := by
  induction items generalizing start with
  | nil => simp
  | cons a items ih => rw [List.foldl_cons, ih, List.all_cons, Connective.apply, Bool.and_assoc]

theorem foldl_or (start : Bool) :
    items.foldl (fun total a => Connective.or.apply total (value a)) start =
      (start || items.any value) := by
  induction items generalizing start with
  | nil => simp
  | cons a items ih => rw [List.foldl_cons, ih, List.any_cons, Connective.apply, Bool.or_assoc]

theorem eval?_conjunction (valued : ∀ a ∈ items, (tree a).eval? env = some (value a)) :
    (chain .and (items.map tree)).eval? env = some (items.all value) := by
  rw [eval?_chain valued, foldl_and]
  rfl

theorem eval?_disjunction (valued : ∀ a ∈ items, (tree a).eval? env = some (value a)) :
    (chain .or (items.map tree)).eval? env = some (items.any value) := by
  rw [eval?_chain valued, foldl_or]
  rfl

end Formula

end Switching
