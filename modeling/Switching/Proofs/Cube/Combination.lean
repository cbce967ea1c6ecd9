import Switching.Proofs.Pattern.Neighbour

/-! # Which cubes can be merged

Two cubes of one width can be merged exactly when they share no index and some cube covers the indices of
both and no others; this cube is the result (`combine?_exact`). Indices are machine words here, which is
what the cubes of up to 64 variables cover.
-/

namespace Switching

open Minterm

namespace Pattern

variable {p q m : Pattern} {index : Nat}

/-- The machine words that a pattern covers. -/
def words (p : Pattern) : Set Nat :=
  {index | index < 2 ^ wordSize ∧ p.covers index = true}

/-- A machine word is covered just if it is one of the covered indices. -/
theorem covers_iff_of_word (word : index < 2 ^ wordSize) :
    p.covers index = true ↔ index ∈ p.covered := by
  rw [covers, Bool.and_eq_true, inRange_iff_of_word word, mem_covered]

/-- Over no more variables than a machine word has bits, all covered indices are machine words. -/
theorem mem_words_iff (short : p.length ≤ wordSize) : index ∈ p.words ↔ index ∈ p.covered := by
  constructor
  · rintro ⟨word, covers⟩
    exact (covers_iff_of_word word).mp covers
  · intro member
    have word : index < 2 ^ wordSize :=
      (lt_of_mem_covered member).trans_le (Nat.pow_le_pow_right Nat.two_pos short)
    exact ⟨word, (covers_iff_of_word word).mpr member⟩

/-- Patterns of one width can be merged to a third one when they share no word and it covers the words of
both. -/
theorem merged_iff_words (left : p.length = m.length) (right : q.length = m.length)
    (short : m.length ≤ wordSize) :
    Merged p q m ↔ Disjoint p.words q.words ∧ m.words = p.words ∪ q.words := by
  rw [merged_iff_parts, Set.disjoint_left, Set.ext_iff]
  simp only [Set.mem_union, mem_words_iff short, mem_words_iff (left ▸ short),
    mem_words_iff (right ▸ short)]
  exact ⟨fun parts => ⟨parts.apart, parts.mem_iff⟩, fun ⟨apart, union⟩ => ⟨left, right, apart, union⟩⟩

end Pattern

namespace Cube

open Pattern

variable {a b c : Cube}

theorem combine?_eq_some_iff : a.combine? b = some c ↔
    Merged a.pattern b.pattern c.pattern ∧ c.origins = a.origins ∪ b.origins := by
  rw [combine?, Option.map_eq_some_iff]
  constructor
  · rintro ⟨m, success, rfl⟩
    exact ⟨merge?_eq_some_iff.mp success, rfl⟩
  · rintro ⟨merged, origins⟩
    exact ⟨c.pattern, merge?_eq_some_iff.mpr merged, by rw [← origins]⟩

theorem isSome_combine?_iff :
    (a.combine? b).isSome = true ↔ ∃ m, Merged a.pattern b.pattern m := by
  simp only [combine?, Option.isSome_map, Option.isSome_iff_exists, merge?_eq_some_iff]

/-- The order of the two cubes does not matter. -/
theorem combine?_symm (success : a.combine? b = some c) : b.combine? a = some c := by
  obtain ⟨merged, origins⟩ := combine?_eq_some_iff.mp success
  refine combine?_eq_some_iff.mpr ⟨merged.symm, ?_⟩
  ext t
  rw [origins, IndexSet.mem_union, IndexSet.mem_union, or_comm]

theorem isSome_combine?_ofMinterm_iff {width i j : Nat} (left : i < 2 ^ width)
    (right : j < 2 ^ width) :
    ((ofMinterm i width).combine? (ofMinterm j width)).isSome = true ↔ adjacent i j = true :=
  isSome_combine?_iff.trans (exists_merged_bits_iff left right)

/-- Two cubes of one width, of at most as many variables as a machine word has bits, can be merged
exactly when they cover no index in common and some pattern of this width covers what either covers and
nothing else. It is enough to compare the free positions and those that are fixed to true: the former are
the same, and of the latter exactly one belongs to only one of the cubes. The merged cube covers just
what the two cover, has one more free position, keeps what is fixed in both, has the origins of both, and
does not depend on the order of the two. Single minterms can be merged exactly when they are adjacent. -/
theorem combine?_exact (a b : Cube) (same : a.width = b.width) (short : a.width ≤ wordSize) :
    ((a.combine? b).isSome = true ↔ Disjoint a.pattern.words b.pattern.words ∧
      ∃ p : Pattern, p.length = a.width ∧ p.words = a.pattern.words ∪ b.pattern.words) ∧
    ((a.combine? b).isSome = true ↔
      (∀ position : Nat, a.pattern[position]? = some none ↔ b.pattern[position]? = some none) ∧
      ∃! position : Nat,
        ¬ (a.pattern[position]? = some (some true) ↔ b.pattern[position]? = some (some true))) ∧
    (∀ c, a.combine? b = some c →
      c.width = a.width ∧
      c.pattern.words = a.pattern.words ∪ b.pattern.words ∧
      c.pattern.dashes = a.pattern.dashes + 1 ∧
      (∀ (position : Nat) (value : Bool), c.pattern[position]? = some (some value) ↔
        a.pattern[position]? = some (some value) ∧ b.pattern[position]? = some (some value)) ∧
      (∀ t, t ∈ c.origins ↔ t ∈ a.origins ∨ t ∈ b.origins) ∧
      b.combine? a = some c) ∧
    ∀ width ≤ wordSize, ∀ i < 2 ^ width, ∀ j < 2 ^ width,
      ((ofMinterm i width).combine? (ofMinterm j width)).isSome = true ↔ adjacent i j = true := by
  have merged_iff {m : Pattern} (length : m.length = a.width) := merged_iff_words (p := a.pattern)
    (q := b.pattern) length.symm (same.symm.trans length.symm) (length ▸ short)
  refine ⟨?_, isSome_combine?_iff.trans (exists_merged_iff_positions same), fun c success => ?_,
    fun width _ i left j right => isSome_combine?_ofMinterm_iff left right⟩
  · rw [isSome_combine?_iff]
    constructor
    · rintro ⟨m, merged⟩
      have length : m.length = a.width := merged.length_eq.symm
      obtain ⟨apart, union⟩ := (merged_iff length).mp merged
      exact ⟨apart, m, length, union⟩
    · rintro ⟨apart, m, length, union⟩
      exact ⟨m, (merged_iff length).mpr ⟨apart, union⟩⟩
  · obtain ⟨merged, origins⟩ := combine?_eq_some_iff.mp success
    have length : c.pattern.length = a.width := merged.length_eq.symm
    refine ⟨length, ((merged_iff length).mp merged).2, merged.dashes_eq,
      fun position value => merged.getElem?_eq_fixed_iff, fun t => ?_, combine?_symm success⟩
    rw [origins, IndexSet.mem_union]

theorem combine?_exact_freed :
    let a : Cube := ⟨[none, some true, some false], .ofList [2, 6]⟩
    let b : Cube := ⟨[none, some true, some true], .ofList [3, 6]⟩
    a.width = b.width ∧ a.width ≤ wordSize ∧
    ((a.combine? b).isSome = true ↔ Disjoint a.pattern.words b.pattern.words ∧
      ∃ p : Pattern, p.length = a.width ∧ p.words = a.pattern.words ∪ b.pattern.words) ∧
    ((a.combine? b).isSome = true ↔
      (∀ position : Nat, a.pattern[position]? = some none ↔ b.pattern[position]? = some none) ∧
      ∃! position : Nat,
        ¬ (a.pattern[position]? = some (some true) ↔ b.pattern[position]? = some (some true))) ∧
    (∀ c, a.combine? b = some c →
      c.width = a.width ∧
      c.pattern.words = a.pattern.words ∪ b.pattern.words ∧
      c.pattern.dashes = a.pattern.dashes + 1 ∧
      (∀ (position : Nat) (value : Bool), c.pattern[position]? = some (some value) ↔
        a.pattern[position]? = some (some value) ∧ b.pattern[position]? = some (some value)) ∧
      (∀ t, t ∈ c.origins ↔ t ∈ a.origins ∨ t ∈ b.origins) ∧
      b.combine? a = some c) ∧
    ∀ width ≤ wordSize, ∀ i < 2 ^ width, ∀ j < 2 ^ width,
      ((ofMinterm i width).combine? (ofMinterm j width)).isSome = true ↔ adjacent i j = true := by
  intro a b
  have short : a.width ≤ wordSize := by decide
  exact ⟨rfl, short, combine?_exact a b rfl short⟩

end Cube

end Switching
