import Switching.Proofs.Form.Reading
import Switching.Proofs.Pattern.Neighbour

/-! # The letters of a written form

In the styles that are offered, only the literals of a form are written with letters. So the letters of
a written form name the positions that are fixed in some of its cubes (`mem_render_iff`).
-/

namespace Switching

namespace Form

variable {form : Form} {vars : Variables} {cubes : List Cube} {c : Cube} {name : Char}
  {complemented : Bool}

/-- A term has a literal for each position that the cube fixes. -/
theorem mem_term_iff : .literal name complemented ∈ form.term vars c ↔
    ∃ entry ∈ c.pattern.fixed, form.literal vars entry = .literal name complemented := by
  have free : c.pattern.dashes = c.width ↔ c.pattern.fixed = [] := Pattern.dashes_eq_length_iff
  simp only [term, free]
  split
  · next none => simp [none]
  · have different : Piece.literal name complemented ≠ .nextLiteral := by simp
    rw [List.mem_append, List.mem_cons, mem_intersperse_iff different, List.mem_map]
    simp

theorem mem_pieces_iff : .literal name complemented ∈ form.pieces vars cubes ↔
    ∃ c ∈ cubes, .literal name complemented ∈ form.term vars c := by
  rw [pieces]
  split
  · next none =>
    rw [List.isEmpty_iff.mp none]
    simp
  · rw [mem_intercalate_iff (by simp)]
    simp only [List.mem_map, exists_exists_and_eq_and]

end Form

namespace Style

variable {style : Style} {form : Form} {vars : Variables} {cubes : List Cube} {letter : Char}
  {piece : Piece}

/-- None of the characters is a letter. -/
def Letterless (marks : List Char) : Prop :=
  ∀ mark ∈ marks, mark.isAlpha = false

theorem Letterless.not_mem {marks : List Char} (letterless : Letterless marks)
    (alpha : letter.isAlpha = true) : letter ∉ marks := by
  intro member
  rw [letterless letter member] at alpha
  cases alpha

theorem letterless_withinTerm (preset : style ∈ presets) (form : Form) :
    Letterless (style.withinTerm form).toList := by
  rcases List.mem_pair.mp preset with rfl | rfl
  · cases form <;> simp [Letterless, withinTerm, textbook]
  · cases form <;> simp [Letterless, withinTerm, operators]

theorem letterless_betweenTerms (preset : style ∈ presets) (form : Form) :
    Letterless (style.betweenTerms form).toList := by
  cases form with
  | sop => exact letterless_withinTerm preset .pos
  | pos => exact letterless_withinTerm preset .sop

theorem letterless_negation (preset : style ∈ presets) : Letterless style.negation.toList := by
  rcases List.mem_pair.mp preset with rfl | rfl
  · simp [Letterless, textbook]
  · simp [Letterless, operators]

/-- Only literals are written with letters. -/
theorem letterless_symbols (preset : style ∈ presets)
    (other : ∀ name complemented, piece ≠ .literal name complemented) :
    Letterless (style.symbols form piece) := by
  cases piece with
  | constant value => cases value <;> simp [Letterless, symbols, Text.bit]
  | literal name complemented => exact absurd rfl (other name complemented)
  | openTerm => cases form <;> simp [Letterless, symbols]
  | nextLiteral => exact letterless_withinTerm preset form
  | closeTerm => cases form <;> simp [Letterless, symbols]
  | nextTerm => exact letterless_betweenTerms preset form

/-- The one letter of a literal is its name. -/
theorem mem_symbols_literal (preset : style ∈ presets) (alpha : letter.isAlpha = true) {name : Char}
    {complemented : Bool} :
    letter ∈ style.symbols form (.literal name complemented) ↔ letter = name := by
  have negation := (letterless_negation preset).not_mem alpha
  cases complemented with
  | false => exact List.mem_singleton
  | true =>
    rw [symbols]
    cases style.negationSide with
    | before => simp [negation]
    | after => simp [negation]

theorem mem_symbols_iff (preset : style ∈ presets) (alpha : letter.isAlpha = true) :
    letter ∈ style.symbols form piece ↔ ∃ complemented, piece = .literal letter complemented := by
  constructor
  · intro written
    by_contra none
    have literal : ∃ name complemented, piece = .literal name complemented := by
      by_contra other
      push Not at other
      exact (letterless_symbols preset other).not_mem alpha written
    obtain ⟨name, complemented, rfl⟩ := literal
    exact none ⟨complemented, by rw [(mem_symbols_literal preset alpha).mp written]⟩
  · rintro ⟨complemented, rfl⟩
    exact (mem_symbols_literal preset alpha).mpr rfl

/-- The letters of a written form name the positions that its cubes fix. -/
theorem mem_render_iff (preset : style ∈ presets) (alpha : letter.isAlpha = true) :
    letter ∈ (style.render form vars cubes).toList ↔
      ∃ position, vars.names[position]? = some letter ∧ ∃ c ∈ cubes, c.pattern.Fixes position := by
  have named (entry : Nat × Bool) : (∃ complemented,
      form.literal vars entry = .literal letter complemented) ↔ vars.names[entry.1]? = some letter := by
    have unknown : letter ≠ '?' := by
      rintro rfl
      cases alpha
    rw [Form.literal]
    cases vars.names[entry.1]? with
    | none => simp [Ne.symm unknown]
    | some name => simp
  rw [render, String.toList_ofList, List.mem_flatMap]
  constructor
  · rintro ⟨piece, listed, written⟩
    obtain ⟨complemented, rfl⟩ := (mem_symbols_iff preset alpha).mp written
    obtain ⟨c, member, listed⟩ := Form.mem_pieces_iff.mp listed
    obtain ⟨⟨position, value⟩, fixed, same⟩ := Form.mem_term_iff.mp listed
    exact ⟨position, (named _).mp ⟨_, same⟩, c, member, value, Pattern.mem_fixed.mp fixed⟩
  · rintro ⟨position, found, c, member, value, fixed⟩
    obtain ⟨complemented, same⟩ := (named (position, value)).mpr found
    refine ⟨.literal letter complemented, Form.mem_pieces_iff.mpr ⟨c, member, ?_⟩,
      (mem_symbols_iff preset alpha).mpr ⟨_, rfl⟩⟩
    exact Form.mem_term_iff.mpr ⟨_, Pattern.mem_fixed.mpr fixed, same⟩

end Style

end Switching
