import Switching.Form.Rendering
import Switching.Proofs.PrimeSearch.Widening

/-! # Writing forms over more variables

A literal is a fixed value beside the name of its variable. Added variables are free, so that they are
not written: spread cubes are written with the same pieces (`pieces_widen`).
-/

namespace Switching

namespace Form

variable {kept : List Bool} {vars wide : Variables} {names : List Char} {p : Pattern}

/-- The literal of a position and the name there; none if the position is free. -/
def literal? (form : Form) (entry : Option Bool × Char) : Option Piece :=
  entry.1.map fun value => .literal entry.2 (form.complements value)

theorem map_literal_zipIdx (form : Form) {first : Nat} (rest : vars.names.drop first = names)
    (fits : p.length = names.length) :
    (((p.zipIdx first).filterMap fun entry => entry.1.map fun value => (entry.2, value)).map
      (form.literal vars)) = (p.zip names).filterMap form.literal? := by
  induction p generalizing first names with
  | nil => rfl
  | cons x p ih =>
    obtain ⟨name, names, rfl⟩ := List.exists_cons_of_length_eq_add_one fits.symm
    have here : vars.names[first]? = some name := by
      rw [← List.head?_drop, rest, List.head?_cons]
    have later : vars.names.drop (first + 1) = names := by
      rw [← List.tail_drop, rest, List.tail_cons]
    have tail := ih later (Nat.succ.inj fits)
    cases x with
    | none => exact tail
    | some value =>
      have literal : form.literal vars (first, value) = .literal name (form.complements value) := by
        rw [Form.literal, here, Option.getD_some]
      exact List.cons_eq_cons.mpr ⟨literal, tail⟩

/-- The literals of a cube are its fixed values beside the names of their variables. -/
theorem map_literal_fixed (form : Form) (fits : p.length = vars.size) :
    p.fixed.map (form.literal vars) = (p.zip vars.names).filterMap form.literal? :=
  map_literal_zipIdx form List.drop_zero fits

theorem filterMap_literal_spread (form : Form) (same : names.length = kept.length)
    (fits : p.length = kept.count true) :
    ((spread none kept p).zip names).filterMap form.literal? =
      (p.zip (pick kept names)).filterMap form.literal? := by
  induction kept generalizing p names with
  | nil =>
    obtain rfl := List.eq_nil_of_length_eq_zero fits
    rfl
  | cons keep kept ih =>
    obtain ⟨name, names, rfl⟩ := List.exists_cons_of_length_eq_add_one same
    have rest : names.length = kept.length := Nat.succ.inj same
    cases keep with
    | false => exact ih rest (by simpa using fits)
    | true =>
      obtain ⟨x, p, rfl⟩ := List.exists_cons_of_length_eq_add_one (by simpa using fits)
      have tail := ih rest (by simpa using fits)
      cases x with
      | none => exact tail
      | some value => exact congrArg (_ :: ·) tail

variable {c : Cube}

theorem term_widen (form : Form) (same : wide.size = kept.length)
    (picked : pick kept wide.names = vars.names) (fits : c.width = kept.count true) :
    form.term wide (c.widen kept) = form.term vars c := by
  have size : vars.size = kept.count true := by
    rw [Variables.size, ← picked]
    exact length_pick same
  have length : c.pattern.length = kept.count true := fits
  have free : (c.widen kept).pattern.dashes = (c.widen kept).width ↔ c.pattern.dashes = c.width := by
    have dashes : (c.widen kept).pattern.dashes = kept.count false + c.pattern.dashes :=
      Pattern.dashes_spread length
    have width : (c.widen kept).width = kept.length := length_spread ..
    have total := List.count_false_add_count_true kept
    rw [dashes, width, fits]
    omega
  have literals : (c.widen kept).pattern.fixed.map (form.literal wide) =
      c.pattern.fixed.map (form.literal vars) := by
    rw [map_literal_fixed form (length.trans size.symm), ← picked,
      ← filterMap_literal_spread form same length]
    exact map_literal_fixed form ((length_spread ..).trans same.symm)
  simp only [term, free, literals]

/-- Cubes that leave the added variables free are written as before. -/
theorem pieces_widen (form : Form) (same : wide.size = kept.length)
    (picked : pick kept wide.names = vars.names) {cubes : List Cube}
    (fits : ∀ c ∈ cubes, c.width = kept.count true) :
    form.pieces wide (cubes.map (Cube.widen kept)) = form.pieces vars cubes := by
  have terms : (cubes.map (Cube.widen kept)).map (form.term wide) = cubes.map (form.term vars) := by
    rw [List.map_map]
    exact List.map_congr_left fun c member => term_widen form same picked (fits c member)
  rw [pieces, pieces, terms, List.isEmpty_map]

end Form

end Switching
