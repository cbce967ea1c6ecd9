import Switching.Proofs.Form.Reading

/-! # Written forms in different styles

The textbook style marks a complemented variable behind it and juxtaposes the operands of a
conjunction; the style with operators negates in front of the variable and writes every conjunction.
Both texts of a form are read as its tree in postorder, where only the side of the negations tells
them apart (`parse_render_agree`).
-/

namespace Switching

theorem Token.withNotBefore_ne (token : Token) :
    token.withNotBefore ≠ .operator (.not .after) := by
  rw [withNotBefore]
  split
  · simp
  · assumption

namespace Formula

/-- The tree with all negations in front of their operands. -/
def withNotBefore : Formula → Formula
  | constant value => constant value
  | var name => var name
  | not _ body => not .before body.withNotBefore
  | binary connective left right => binary connective left.withNotBefore right.withNotBefore

theorem postorder_withNotBefore (f : Formula) :
    f.withNotBefore.postorder = f.postorder.map Token.withNotBefore := by
  induction f with
  | constant _ => rfl
  | var _ => rfl
  | not side body ih =>
    rw [withNotBefore, postorder, postorder, List.map_append, ih]
    cases side <;> rfl
  | binary connective left right leftIH rightIH =>
    rw [withNotBefore, postorder, postorder, List.map_append, List.map_append, leftIH, rightIH]
    rfl

theorem withNotBefore_chain (connective : Connective) (trees : List Formula) :
    (chain connective trees).withNotBefore = chain connective (trees.map withNotBefore) := by
  cases trees with
  | nil => rfl
  | cons f rest =>
    rw [chain, List.map_cons, chain, List.foldl_map]
    exact (List.foldl_hom withNotBefore fun _ _ => rfl).symm

end Formula

namespace Form

variable (form : Form) (side : Side) (vars : Variables)

theorem withNotBefore_literalTree (entry : Nat × Bool) :
    (form.literalTree side vars entry).withNotBefore = form.literalTree .before vars entry := by
  rw [literalTree, literalTree]
  split <;> rfl

theorem withNotBefore_termTree (c : Cube) :
    (form.termTree side vars c).withNotBefore = form.termTree .before vars c := by
  rw [termTree, termTree]
  split
  · rfl
  · rw [Formula.withNotBefore_chain, List.map_map]
    congr 2
    funext entry
    exact withNotBefore_literalTree form side vars entry

/-- The trees of a form differ in the side of their negations only. -/
theorem withNotBefore_tree (cubes : List Cube) :
    (form.tree side vars cubes).withNotBefore = form.tree .before vars cubes := by
  rw [tree, tree, Formula.withNotBefore_chain, List.map_map]
  congr 2
  funext c
  exact withNotBefore_termTree form side vars c

end Form

namespace Style

variable {vars : Variables} {cubes : List Cube}

/-- Whatever cubes over distinct letters are written, and in whatever form, both styles are read, and
the tokens in postorder are the same once every negation behind its operand is replaced by one in
front of it. In the style with operators there is none to replace. -/
theorem parse_render_agree (form : Form) (lettered : vars.Lettered)
    (wide : ∀ c ∈ cubes, c.width = vars.size) :
    ∃ e t, Expression.parse (textbook.render form vars cubes) = .ok e ∧
      Expression.parse (operators.render form vars cubes) = .ok t ∧
      e.tokens.map Token.withNotBefore = t.tokens.map Token.withNotBefore ∧
      .operator (.not .after) ∉ t.tokens := by
  have turned (side : Side) : (form.tree side vars cubes).postorder.map Token.withNotBefore =
      (form.tree .before vars cubes).postorder := by
    rw [← Formula.postorder_withNotBefore, Form.withNotBefore_tree]
  refine ⟨_, _, parse_render (by decide) form lettered wide,
    parse_render (by decide) form lettered wide, ?_, ?_⟩
  · exact (turned .after).trans (turned .before).symm
  · change .operator (.not .after) ∉ (form.tree .before vars cubes).postorder
    rw [← turned .before, List.mem_map]
    rintro ⟨token, _, same⟩
    exact token.withNotBefore_ne same

theorem parse_render_agree_constant :
    let vars : Variables := ⟨['C', 'A']⟩
    let cubes : List Cube :=
      [.ofPattern [some true, some false], .ofPattern [none, none], .ofPattern [none, some true]]
    vars.Lettered ∧ (∀ c ∈ cubes, c.width = vars.size) ∧
    ∃ e t, Expression.parse (textbook.render .pos vars cubes) = .ok e ∧
      Expression.parse (operators.render .pos vars cubes) = .ok t ∧
      e.tokens.map Token.withNotBefore = t.tokens.map Token.withNotBefore ∧
      .operator (.not .after) ∉ t.tokens := by
  intro vars cubes
  have lettered : vars.Lettered := by decide
  have wide : ∀ c ∈ cubes, c.width = vars.size := by decide
  exact ⟨lettered, wide, parse_render_agree .pos lettered wide⟩

end Style

end Switching
