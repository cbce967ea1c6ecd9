import Switching.Proofs.Token.Scanning

/-! # Printed tokens are read back

What is read is canonical: its variables are letters in upper case, and a negation written after its
operand follows a variable (`canonical_spelled`). Canonical tokens are printed as their symbols, one after
the other, with any blanks between them, and read back as they were (`canonical_reads_back`).
-/

namespace Switching.Token

variable {c : Char} {token : Token} {chars : List Char} {tokens : List Token}

/-! ## What is read -/

theorem Canonical.nil : Canonical [] :=
  ⟨nofun, trivial⟩

theorem Canonical.append {first second : List Token} (left : Canonical first)
    (right : Canonical second) : Canonical (first ++ second) := by
  refine ⟨fun name member => ?_, left.attached.append right.attached⟩
  rcases List.mem_append.mp member with before | after
  · exact left.upper name before
  · exact right.upper name after

theorem canonical_spelling (c : Char) (rest : List Char) : Canonical (spelling c rest) := by
  rw [spelling]
  split
  · next isLetter =>
    constructor
    · intro name member
      have plain : .var name ∉ negation rest := by rw [negation]; split <;> simp
      rcases List.mem_cons.mp member with same | marked
      · cases same
        exact isUpper_toUpper isLetter
      · exact absurd marked plain
    · refine ⟨Token.noConfusion, ?_⟩
      rw [negation]
      split
      · exact ⟨fun _ => rfl, trivial⟩
      · exact trivial
  · next noLetter =>
    cases found : signs.lookup c with
    | none => exact .nil
    | some token =>
      obtain ⟨first, last, listed, _⟩ := List.lookup_eq_some_iff.mp found
      have member : (c, token) ∈ signs := by rw [listed]; simp
      have plain : ∀ sign ∈ signs, sign.2.varName? = none ∧ sign.2 ≠ .operator (.not .after) := by
        decide
      obtain ⟨nameless, unmarked⟩ := plain _ member
      refine ⟨fun name same => ?_, fun marked => absurd marked unmarked, trivial⟩
      obtain rfl := List.mem_singleton.mp same
      cases nameless

theorem canonical_spelled (chars : List Char) : Canonical (spelled chars) := by
  induction chars with
  | nil => exact .nil
  | cons c rest ih => exact (canonical_spelling c rest).append ih

theorem canonical_of_readAll {text : String} (success : readAll text = .ok tokens) :
    Canonical tokens := by
  rw [eq_spelled_of_readAll success]
  exact canonical_spelled _

/-! ## What is printed -/

/-- The symbol of a token stands for the token. -/
theorem stands_symbol (upper : ∀ name, token = .var name → name.isUpper = true) :
    Stands token.symbol token := by
  match token with
  | .var name =>
    have isUpper := upper name rfl
    have meaning := ofChar?_letter (isAlpha_of_isUpper isUpper)
    rw [toUpper_of_isUpper isUpper] at meaning
    exact (if_neg (visible_of_ofChar? meaning).2.1).mpr meaning
  | .operator (.not .after) => exact (if_pos rfl).mpr rfl
  | .constant false | .constant true | .operator (.not .before) | .operator (.binary .and)
  | .operator (.binary .or) | .operator (.binary .xor) | .openParen | .closeParen =>
    exact (if_neg (by decide)).mpr rfl

theorem isBlank_of_stands (stands : Stands c token) : Text.isBlank c = false := by
  rw [Stands] at stands
  split at stands
  · next apostrophe =>
    subst apostrophe
    decide
  · exact (visible_of_ofChar? stands).1

/-- What is left of a print without its blanks stands for the tokens one by one. -/
theorem stands_of_prints (prints : Prints chars tokens)
    (upper : ∀ name, .var name ∈ tokens → name.isUpper = true) :
    List.Forall₂ Stands (chars.filter (!Text.isBlank ·)) tokens := by
  induction prints with
  | nil => exact .nil
  | blank isBlank _ ih =>
    rw [List.filter_cons_of_neg (by simp [isBlank])]
    exact ih upper
  | symbol token _ ih =>
    have stands : Stands token.symbol token := by
      refine stands_symbol fun name same => upper name ?_
      rw [same]
      exact List.mem_cons_self
    rw [List.filter_cons_of_pos (by simp [isBlank_of_stands stands])]
    exact .cons stands (ih fun name member => upper name (List.mem_cons_of_mem token member))

/-- Every text that can be read is read as canonical tokens, and canonical tokens are read back from every
text that prints them, whatever blanks it has. -/
theorem canonical_reads_back :
    (∀ text tokens, readAll text = .ok tokens → Canonical tokens) ∧
    ∀ tokens, Canonical tokens → ∀ text : String, Prints text.toList tokens →
      readAll text = .ok tokens := by
  refine ⟨fun _ _ success => canonical_of_readAll success, fun tokens canonical text prints => ?_⟩
  exact readAll_of_writes ⟨stands_of_prints prints canonical.upper, canonical.attached⟩

theorem canonical_reads_back_adjacent :
    let tokens : List Token := [.operator (.not .before), .var 'A', .operator (.not .after), .var 'B',
      .constant true, .closeParen]
    let text := "! A' B\u30001)\n"
    readAll "~a'''b''1)" = .ok tokens ∧ Canonical tokens ∧ Prints text.toList tokens ∧
      readAll text = .ok tokens := by
  intro tokens text
  have read : readAll "~a'''b''1)" = .ok tokens := by decide +kernel
  have canonical := canonical_reads_back.1 _ _ read
  have chars : text.toList = ['!', ' ', 'A', '\'', ' ', 'B', '\u3000', '1', ')', '\n'] := by
    decide +kernel
  have space : Text.isBlank ' ' = true := by decide
  have wide : Text.isBlank '\u3000' = true := by decide
  have line : Text.isBlank '\n' = true := by decide
  have prints : Prints text.toList tokens := by
    rw [chars]
    exact .symbol (.operator (.not .before)) (.blank space (.symbol (.var 'A')
      (.symbol (.operator (.not .after)) (.blank space (.symbol (.var 'B') (.blank wide
        (.symbol (.constant true) (.symbol .closeParen (.blank line .nil)))))))))
  exact ⟨read, canonical, prints, canonical_reads_back.2 tokens canonical text prints⟩

end Switching.Token
