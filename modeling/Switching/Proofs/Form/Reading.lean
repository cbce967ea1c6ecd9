import Switching.Proofs.Expression.Phrase
import Switching.Proofs.Form.Tree

/-! # Written forms are read back

In each of the styles that are offered, a written form is a phrase of its tree (`phrase_render`), and
so it is read as the postorder of that tree, whatever its cubes are (`parse_render`).
-/

namespace Switching

/-! ## Parts with joints between them -/

section Joints

variable {α β : Type}

theorem map_intersperse (f : α → β) (joint : α) (parts : List α) :
    (parts.intersperse joint).map f = (parts.map f).intersperse (f joint) := by
  match parts with
  | [] => rfl
  | [part] => rfl
  | first :: second :: rest =>
    have later := map_intersperse f joint (second :: rest)
    simp only [List.intersperse_cons_cons, List.map_cons, later]

theorem flatMap_intersperse (f : α → List β) (joint : α) (parts : List α) :
    (parts.intersperse joint).flatMap f = (f joint).intercalate (parts.map f) := by
  rw [List.flatMap_def, map_intersperse, List.intercalate]

theorem flatMap_intercalate (f : α → List β) (joint : List α) (parts : List (List α)) :
    (joint.intercalate parts).flatMap f = (joint.flatMap f).intercalate (parts.map (·.flatMap f)) := by
  rw [List.intercalate, List.flatten_eq_flatMap, List.flatMap_assoc]
  exact flatMap_intersperse (·.flatMap f) joint parts

theorem mem_intersperse_iff {joint a : α} (different : a ≠ joint) (parts : List α) :
    a ∈ parts.intersperse joint ↔ a ∈ parts := by
  match parts with
  | [] => rfl
  | [part] => rfl
  | first :: second :: rest =>
    have later := mem_intersperse_iff different (second :: rest)
    simp only [List.intersperse_cons_cons, List.mem_cons, different, false_or, later]

theorem mem_intercalate_iff {joint : List α} {parts : List (List α)} {a : α} (absent : a ∉ joint) :
    a ∈ joint.intercalate parts ↔ ∃ part ∈ parts, a ∈ part := by
  rw [List.intercalate, List.mem_flatten]
  refine exists_congr fun part => and_congr_left fun member => mem_intersperse_iff ?_ parts
  rintro rfl
  exact absent member

end Joints

namespace Style

variable {style : Style} {vars : Variables}

theorem phrase_literal (preset : style ∈ presets) (form : Form) (lettered : vars.Lettered)
    {entry : Nat × Bool} (inside : entry.1 < vars.size) :
    Phrase .negated (style.symbols form (form.literal vars entry))
      (form.literalTree style.negationSide vars entry) := by
  have listed : vars.names[entry.1]? = some vars.names[entry.1] := List.getElem?_eq_getElem inside
  have upper := lettered.2 _ (List.mem_of_getElem? listed)
  rw [Form.literal, Form.literalTree, listed, Option.getD_some]
  cases form.complements entry.2 with
  | false => exact (Phrase.var upper).of_primary
  | true =>
    rcases List.mem_pair.mp preset with rfl | rfl
    · exact (Phrase.notAfter upper).loosen .marked
    · exact (Phrase.var upper).of_primary.notBefore

/-- What stands between literals joins them. -/
theorem isJoint_withinTerm (preset : style ∈ presets) (form : Form) :
    Phrase.IsJoint form.inner (style.withinTerm form).toList := by
  rcases List.mem_pair.mp preset with rfl | rfl
  · cases form with
    | sop => exact Phrase.isJoint_juxtaposed
    | pos => exact Phrase.isJoint_or rfl
  · cases form with
    | sop => exact Phrase.isJoint_and rfl
    | pos => exact Phrase.isJoint_or rfl

/-- What stands between terms joins them. -/
theorem isJoint_betweenTerms (preset : style ∈ presets) (form : Form) :
    Phrase.IsJoint form.outer (style.betweenTerms form).toList := by
  cases form with
  | sop => exact isJoint_withinTerm preset .pos
  | pos => exact isJoint_withinTerm preset .sop

theorem phrase_literals (preset : style ∈ presets) (form : Form) (lettered : vars.Lettered)
    {entries : List (Nat × Bool)} (inside : ∀ entry ∈ entries, entry.1 < vars.size)
    (nonempty : entries ≠ []) :
    Phrase form.inner.level
      (((entries.map (form.literal vars)).intersperse .nextLiteral).flatMap (style.symbols form))
      (.chain form.inner (entries.map (form.literalTree style.negationSide vars))) := by
  rw [flatMap_intersperse, List.map_map]
  apply Phrase.intercalate (isJoint_withinTerm preset form) _ nonempty
  intro entry member
  have literal := phrase_literal preset form lettered (inside entry member)
  cases form with
  | sop => exact literal
  | pos => exact (literal.loosen .negated).loosen .product

/-- A product can be an operand of a disjunction as it stands, a sum needs its parentheses. -/
theorem phrase_term (preset : style ∈ presets) (form : Form) (lettered : vars.Lettered) {c : Cube}
    (wide : c.width = vars.size) :
    Phrase form.outer.operand ((form.term vars c).flatMap (style.symbols form))
      (form.termTree style.negationSide vars c) := by
  have free : c.pattern.dashes = c.width ↔ c.pattern.fixed = [] := Pattern.dashes_eq_length_iff
  simp only [Form.term, Form.termTree, free]
  split
  · exact (Phrase.constant true).of_primary
  · next fixed =>
    have literals := phrase_literals preset form lettered
      (fun entry member => wide ▸ Pattern.lt_of_mem_fixed member) fixed
    rw [List.flatMap_append, List.flatMap_cons]
    cases form with
    | sop =>
      have bare := literals.loosen .product
      rwa [← List.append_nil (List.flatMap _ _)] at bare
    | pos => exact literals.paren.of_primary

/-- A written form is a phrase of its tree. -/
theorem phrase_render (preset : style ∈ presets) (form : Form) (lettered : vars.Lettered)
    {cubes : List Cube} (wide : ∀ c ∈ cubes, c.width = vars.size) :
    Phrase .sum (style.render form vars cubes).toList
      (form.tree style.negationSide vars cubes) := by
  rw [render, String.toList_ofList, Form.pieces, Form.tree]
  split
  · next empty =>
    rw [List.isEmpty_iff.mp empty]
    cases form with
    | sop => exact (Phrase.constant false).of_primary
    | pos => exact (Phrase.constant true).of_primary
  · next nonempty =>
    have terms := Phrase.intercalate (isJoint_betweenTerms preset form)
      (fun c member => phrase_term preset form lettered (wide c member))
      (mt List.isEmpty_iff.mpr nonempty)
    rw [flatMap_intercalate, List.map_map, List.flatMap_singleton]
    cases form with
    | sop => exact terms
    | pos => exact (terms.loosen .product).loosen .parity

theorem parse_render (preset : style ∈ presets) (form : Form) (lettered : vars.Lettered)
    {cubes : List Cube} (wide : ∀ c ∈ cubes, c.width = vars.size) :
    Expression.parse (style.render form vars cubes) =
      .ok ⟨(form.tree style.negationSide vars cubes).postorder⟩ :=
  (phrase_render preset form lettered wide).parse_eq

/-- A written form is read as an expression that has the value of the form at every index. -/
theorem eval_render (preset : style ∈ presets) (form : Form) (lettered : vars.Lettered)
    {cubes : List Cube} (wide : ∀ c ∈ cubes, c.width = vars.size) :
    ∃ e, Expression.parse (style.render form vars cubes) = .ok e ∧
      ∀ index, e.eval (.ofIndex vars index) = .ok (form.value cubes index) := by
  refine ⟨_, parse_render preset form lettered wide, fun index => ?_⟩
  exact Formula.eval_postorder (Form.eval?_tree form _ lettered index wide)

end Style

end Switching
