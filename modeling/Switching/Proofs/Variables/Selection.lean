import Switching.Proofs.Letter
import Switching.Variables

/-! # Keeping some positions of a list

A list of truth values tells which positions of another list are kept. `pick` keeps the entries there,
and `spread` goes back: it puts a filler at the positions that are not kept. Variables that a longer list
includes are picked from it (`pick_names`).
-/

namespace Switching

variable {α β : Type} {kept : List Bool} {list : List α} {filler : α}

@[simp] theorem length_spread (filler : α) (kept : List Bool) (list : List α) :
    (spread filler kept list).length = kept.length := by
  fun_induction spread filler kept list with
  | case1 => rfl
  | case2 kept list ih => rw [List.length_cons, List.length_cons, ih]
  | case3 kept ih => rw [List.length_cons, List.length_cons, ih]
  | case4 kept a rest ih => rw [List.length_cons, List.length_cons, ih]

theorem length_pick (same : list.length = kept.length) :
    (pick kept list).length = kept.count true := by
  fun_induction pick kept list with
  | case1 => rfl
  | case2 => simp at same
  | case3 kept a rest ih => simpa using ih (Nat.succ.inj same)
  | case4 kept a rest ih => simpa using ih (Nat.succ.inj same)

theorem pick_spread (fits : list.length = kept.count true) :
    pick kept (spread filler kept list) = list := by
  fun_induction spread filler kept list with
  | case1 list => exact (List.eq_nil_of_length_eq_zero fits).symm
  | case2 kept list ih => exact ih (by simpa using fits)
  | case3 kept ih => simp at fits
  | case4 kept a rest ih => exact congrArg (a :: ·) (ih (by simpa using fits))

theorem map_pick (f : α → β) (kept : List Bool) (list : List α) :
    (pick kept list).map f = pick kept (list.map f) := by
  fun_induction pick kept list with
  | case1 => rfl
  | case2 => rfl
  | case3 kept a rest ih => exact ih
  | case4 kept a rest ih => exact congrArg (f a :: ·) ih

/-- Only the entries at the positions that are kept matter. -/
theorem pick_congr {other : List α} (lengths : list.length = other.length)
    (same : ∀ position : Nat, kept[position]? = some true → list[position]? = other[position]?) :
    pick kept list = pick kept other := by
  induction kept generalizing list other with
  | nil => rfl
  | cons keep kept ih =>
    match list, other with
    | [], [] => rfl
    | [], _ :: _ => cases lengths
    | _ :: _, [] => cases lengths
    | a :: list, b :: other =>
      have rest : pick kept list = pick kept other :=
        ih (Nat.succ.inj lengths) fun position => same (position + 1)
      cases keep with
      | false => exact rest
      | true =>
        obtain rfl : a = b := Option.some.inj (same 0 rfl)
        exact congrArg (a :: ·) rest

theorem pick_map_eq_filter (keep : α → Bool) (list : List α) :
    pick (list.map keep) list = list.filter keep := by
  induction list with
  | nil => rfl
  | cons a list ih =>
    rw [List.map_cons, List.filter_cons]
    cases keep a with
    | false => exact ih
    | true => exact congrArg (a :: ·) ih

namespace Variables

theorem pick_names {old new : Variables} (upper : ∀ name ∈ old.names, name.isUpper = true)
    (includes : new.Includes old) : pick (keeps old new) new.names = old.names := by
  -- An old variable is in upper case, so that it is among the characters that name a letter of these.
  have named (name : Char) : (decide (name ∈ old.names) && decide (name.toUpper ∈ old.names)) =
      decide (name ∈ old.names) := by
    by_cases member : name ∈ old.names
    · simp [member, toUpper_of_isUpper (upper name member)]
    · simp [member]
  calc pick (keeps old new) new.names
    _ = new.names.filter (decide <| · ∈ old.names) := pick_map_eq_filter ..
    _ = (new.names.filter (·.toUpper ∈ old.names)).filter (decide <| · ∈ old.names) := by
        rw [List.filter_filter]
        exact List.filter_congr fun name _ => (named name).symm
    _ = old.names.filter (decide <| · ∈ old.names) := by rw [includes]
    _ = old.names := List.filter_eq_self.mpr fun _ member => decide_eq_true member

/-- Distinct letters in upper case include those among them, in the same order. -/
theorem Lettered.includes {old new : Variables} (lettered : new.Lettered)
    (order : old.names.Sublist new.names) : new.Includes old := by
  have upper : new.names.filter (·.toUpper ∈ old.names) = new.names.filter (· ∈ old.names) :=
    List.filter_congr fun name member => by rw [toUpper_of_isUpper (lettered.2 name member)]
  have all : old.names.filter (decide <| · ∈ old.names) = old.names :=
    List.filter_eq_self.mpr fun _ member => decide_eq_true member
  have part : old.names.Sublist (new.names.filter (decide <| · ∈ old.names)) := by
    have := order.filter (decide <| · ∈ old.names)
    rwa [all] at this
  have few : (new.names.filter (decide <| · ∈ old.names)).length ≤ old.names.length :=
    (lettered.1.filter _).length_le_of_subset fun _ member =>
      of_decide_eq_true (List.mem_filter.mp member).2
  exact upper.trans (part.eq_of_length_le few).symm

end Variables

end Switching
