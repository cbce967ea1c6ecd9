import Switching.Cube

/-! # Reading a cube

A pattern is read back from its symbols, each of which stands for one position. A text is read as a cube
when it spells a pattern, between the gaps, that is not too wide (`ofString_eq_ok_iff`).
-/

namespace Switching

namespace Pattern

theorem ofSymbol?_eq_some_iff {c : Char} {x : Option Bool} : ofSymbol? c = some x ↔ c = symbol x := by
  constructor
  · intro found
    unfold ofSymbol? at found
    split at found <;> cases found <;> rfl
  · rintro rfl
    exact symbol_ofSymbol? x

theorem symbol_injective : Function.Injective symbol := by
  intro x y same
  have read := congrArg ofSymbol? same
  rwa [symbol_ofSymbol?, symbol_ofSymbol?, Option.some.injEq] at read

theorem mapM_ofSymbol?_eq_some_iff {word : List Char} {p : Pattern} :
    word.mapM ofSymbol? = some p ↔ word = p.symbols := by
  induction word generalizing p with
  | nil =>
    cases p with
    | nil => exact iff_of_true rfl rfl
    | cons x p => exact iff_of_false nofun nofun
  | cons c word ih =>
    rw [List.mapM_cons]
    simp only [Option.bind_eq_bind, Option.bind_eq_some_iff, Option.pure_def, Option.some.injEq, ih,
      ofSymbol?_eq_some_iff]
    cases p with
    | nil => simp [symbols]
    | cons x p =>
      simp only [symbols, List.map_cons, List.cons.injEq]
      constructor
      · rintro ⟨_, rfl, _, rfl, rfl, rfl⟩
        exact ⟨rfl, rfl⟩
      · rintro ⟨rfl, rfl⟩
        exact ⟨x, rfl, p, rfl, rfl, rfl⟩

end Pattern

namespace Cube

open Pattern

theorem ofString_eq_ok_iff {text : String} {c : Cube} : ofString text = .ok c ↔
    ∃ p : Pattern, text.toList.filter (!isGap ·) = p.symbols ∧ p.length ≤ maxWidth ∧
      c = ofPattern p := by
  rw [ofString]
  constructor
  · intro read
    split at read
    · cases read
    · rename_i p found
      split at read
      · cases read
      · rename_i narrow
        cases read
        exact ⟨p, mapM_ofSymbol?_eq_some_iff.mp found, Nat.not_lt.mp narrow, rfl⟩
  · rintro ⟨p, spelled, narrow, rfl⟩
    rw [mapM_ofSymbol?_eq_some_iff.mpr spelled]
    exact if_neg (Nat.not_lt.mpr narrow)

end Cube

end Switching
