import Mathlib
import Switching.Proofs.Letter
import Switching.Token.Spelling

/-! # Reading written tokens

A token is written as any character that stands for it, with any blanks around it. What is written is
read back as long as an apostrophe follows letters only, and no two of them follow each other
(`readAll_of_writes`).
-/

namespace Switching.Token

/-- A character stands for a token. -/
def Stands (c : Char) (token : Token) : Prop :=
  if c = '\'' then token = .operator (.not .after) else ofChar? c = some token

/-- Characters write tokens, whatever is written before them. -/
structure Writes (chars : List Char) (tokens : List Token) : Prop where
  stands : List.Forall₂ Stands (chars.filter (!Text.isBlank ·)) tokens
  attached : Attached false tokens

variable {letter : Bool} {c : Char} {token : Token} {chars : List Char} {tokens : List Token}

theorem Attached.mono (attached : Attached false tokens) : Attached letter tokens := by
  cases tokens with
  | nil => exact trivial
  | cons token rest => exact ⟨fun mark => absurd (attached.1 mark) Bool.false_ne_true, attached.2⟩

theorem Attached.append {first second : List Token} (left : Attached letter first)
    (right : Attached false second) : Attached letter (first ++ second) := by
  induction first generalizing letter with
  | nil => exact right.mono
  | cons token rest ih => exact ⟨left.1, ih left.2⟩

/-! ## Characters with a meaning of their own -/

theorem isBlank_eq_false (isLetter : c.isAlpha = true) : Text.isBlank c = false := by
  have code := isAlpha_iff.mp isLetter
  simp only [Text.isBlank, Text.blankRanges, List.any_cons, List.any_nil, Bool.or_false,
    Bool.or_eq_false_iff, Bool.and_eq_false_iff, decide_eq_false_iff_not]
  omega

theorem ofChar?_letter (isLetter : c.isAlpha = true) : ofChar? c = some (.var c.toUpper) := by
  unfold ofChar?
  split
  all_goals exact if_pos isLetter

/-- A character with a meaning of its own is visible, and it is no apostrophe. -/
theorem visible_of_ofChar? (meaning : ofChar? c = some token) :
    Text.isBlank c = false ∧ c ≠ '\'' ∧ token ≠ .operator (.not .after) := by
  unfold ofChar? at meaning
  split at meaning
  all_goals first
    | cases meaning; decide
    | skip
  split at meaning
  · next isLetter =>
    cases meaning
    refine ⟨isBlank_eq_false isLetter, ?_, by simp⟩
    rintro rfl
    exact absurd isLetter (by decide)
  · cases meaning

namespace Writes

theorem nil : Writes [] [] := ⟨.nil, trivial⟩

theorem append {first second : List Char} {left right : List Token} (before : Writes first left)
    (after : Writes second right) : Writes (first ++ second) (left ++ right) := by
  refine ⟨?_, before.attached.append after.attached⟩
  rw [List.filter_append]
  exact List.rel_append before.stands after.stands

theorem blank (isBlank : Text.isBlank c = true) : Writes [c] [] := by
  refine ⟨?_, trivial⟩
  rw [List.filter_cons_of_neg (by simp [isBlank])]
  exact .nil

theorem singleton (meaning : ofChar? c = some token) : Writes [c] [token] := by
  obtain ⟨visible, plain, noMark⟩ := visible_of_ofChar? meaning
  refine ⟨?_, fun mark => absurd mark noMark, trivial⟩
  rw [List.filter_cons_of_pos (by simp [visible])]
  exact .cons ((if_neg plain).mpr meaning) .nil

/-- A letter with an apostrophe is a negation. -/
theorem marked (isLetter : c.isAlpha = true) :
    Writes [c, '\''] [.var c.toUpper, .operator (.not .after)] := by
  have meaning := ofChar?_letter isLetter
  obtain ⟨visible, plain, _⟩ := visible_of_ofChar? meaning
  refine ⟨?_, by simp, fun _ => rfl, trivial⟩
  rw [List.filter_cons_of_pos (by simp [visible]), List.filter_cons_of_pos (by decide)]
  exact .cons ((if_neg plain).mpr meaning) (.cons ((if_pos rfl).mpr rfl) .nil)

end Writes

/-- Written tokens are read back. After a letter, no apostrophe has been read yet. -/
theorem scan_of_stands {marks : Marks} (stands : List.Forall₂ Stands chars tokens)
    (attached : Attached letter tokens) (fresh : letter = true → marks = .even) (position : Nat) :
    scan position marks chars = .ok (marks.tokens ++ tokens) := by
  induction stands generalizing letter marks position with
  | nil => rw [scan, List.append_nil]
  | @cons c token chars tokens first _ ih =>
    rw [scan]
    split
    · next apostrophe =>
      rw [Stands, if_pos apostrophe] at first
      obtain rfl := fresh (attached.1 first)
      have blocked : token.varName?.isSome = true → Marks.odd = .even := by simp [first, varName?]
      have rest := ih attached.2 blocked (position + 1)
      rw [first]
      exact rest
    · next other =>
      rw [Stands, if_neg other] at first
      have start : token.varName?.isSome = true → token.marks = .even := by
        cases token <;> simp [varName?, Token.marks]
      have unmarked : token.marks.tokens = [] := by cases token <;> rfl
      have rest := ih attached.2 start (position + 1)
      rw [unmarked, List.nil_append] at rest
      rw [first]
      change (scan (position + 1) token.marks chars).map _ = _
      rw [rest]
      rfl

theorem readAll_of_writes {text : String} (writes : Writes text.toList tokens) :
    readAll text = .ok tokens :=
  scan_of_stands writes.stands writes.attached (fun absent => absurd absent Bool.false_ne_true) 0

end Switching.Token
