import Switching.Cube.Key
import Switching.Proofs.Minimized.Word

/-! # The order of the primes of a minimization

The primes are listed by their keys: first those with fewer free positions, then those with fewer
positions fixed to true, then by the smallest word that they cover and by the weights of their free
positions. Since no two have the same key, the list and the position of each prime in it depend on
nothing but the set of the primes (`primes_minimizeBy?_sorted`).

Among numbers this is the order in which the search finds them. The keys of words are compared as those of
their longer numbers: a longer number of a larger word is larger, and the bits that are read again are fixed
in every prime, so that the weights of the free positions are multiplied by the same factor
(`freeWeights_lengthen`).
-/

namespace Switching

open Minterm

/-- Lists are compared alike when their elements are. -/
theorem map_lt_map_iff {f : Nat → Nat} (mono : StrictMono f) {first second : List Nat} :
    first.map f < second.map f ↔ first < second := by
  induction first generalizing second with
  | nil => cases second <;> simp
  | cons a first ih =>
    cases second with
    | nil => simp
    | cons b second =>
      simp only [List.map_cons, List.cons_lt_cons_iff, mono.lt_iff_lt, mono.injective.eq_iff, ih]

namespace PrimeSearch.PrimesOf

variable {shift : Shift} {terms : IndexSet} {width : Nat} {primes : CubeList} {c d : Cube}

theorem mem_wordsBy_iff (primesOf : PrimesOf shift terms width primes) (member : c ∈ primes)
    {index : Nat} (word : index < 2 ^ wordSize) :
    index ∈ c.wordsBy shift ↔ Minterm.lengthen width index ∈ (c.lengthen width).pattern.covered := by
  have length : (c.lengthen width).pattern.length = width :=
    (Cube.width_lengthen width c).trans (primesOf.width_eq c member)
  calc index ∈ c.wordsBy shift
    _ ↔ c.coversBy shift index = true := and_iff_right word
    _ ↔ (c.lengthen width).covers (Minterm.lengthen width index) = true := by
      rw [primesOf.covers_eq c member index word]
    _ ↔ Minterm.lengthen width index ∈ (c.lengthen width).pattern.covered := by
      rw [Cube.covers, Pattern.covers, Bool.and_eq_true, Pattern.mem_covered, length,
        inRange_lengthen_iff word]

section Primes

variable (primesOf : PrimesOf shift terms width primes) (words : ∀ t ∈ terms, t < 2 ^ wordSize)
  (inside : ∀ t ∈ terms, t < 2 ^ width)

include primesOf words inside

/-- What a prime covers among longer numbers are longer numbers of words. -/
theorem exists_word (member : c ∈ primes) {number : Nat}
    (covered : number ∈ (c.lengthen width).pattern.covered) :
    ∃ index < 2 ^ wordSize, Minterm.lengthen width index = number := by
  have listed : c.lengthen width ∈ PrimeSearch.primes (terms.lengthen width) width :=
    primesOf.rename_eq ▸ List.mem_map_of_mem member
  obtain ⟨p, _, isolated, same⟩ :=
    (mem_primes_iff_isolated (lt_of_mem_lengthen words inside)).mp listed
  rw [same] at covered
  obtain ⟨index, term, longer⟩ := IndexSet.mem_lengthen.mp (isolated.1 number covered)
  exact ⟨index, words index term, longer⟩

/-- The smallest word that a prime covers has the smallest longer number. -/
theorem exists_isLeast (member : c ∈ primes) : ∃ index, IsLeast (c.wordsBy shift) index ∧
    (c.lengthen width).pattern.lowest = Minterm.lengthen width index := by
  obtain ⟨index, word, longer⟩ :=
    primesOf.exists_word words inside member (Pattern.lowest_mem_covered _)
  refine ⟨index, ⟨?_, fun other found => ?_⟩, longer.symm⟩
  · rw [primesOf.mem_wordsBy_iff member word, longer]
    exact Pattern.lowest_mem_covered _
  · have covered := (primesOf.mem_wordsBy_iff member found.1).mp found
    rw [← (lengthen_strictMono width).le_iff_le, longer]
    exact Pattern.lowest_le covered

theorem isLeast_sInf (member : c ∈ primes) : IsLeast (c.wordsBy shift) (sInf (c.wordsBy shift)) := by
  obtain ⟨index, least, _⟩ := primesOf.exists_isLeast words inside member
  rwa [least.csInf_eq]

theorem lowest_lengthen (member : c ∈ primes) :
    (c.lengthen width).pattern.lowest = Minterm.lengthen width (sInf (c.wordsBy shift)) := by
  obtain ⟨index, least, longer⟩ := primesOf.exists_isLeast words inside member
  rw [least.csInf_eq, longer]

/-- The bits that are read again are fixed in a prime: two words that differ in one of them differ in the bits
that it was read from before. -/
theorem not_mem_take (member : c ∈ primes) : none ∉ c.pattern.take (width - wordSize) := by
  intro free
  have fits : c.pattern.length = width := primesOf.width_eq c member
  obtain ⟨position, found⟩ := List.mem_iff_getElem?.mp free
  have early : position < width - wordSize := by
    have within := (List.getElem?_eq_some_iff.mp found).1
    rw [List.length_take] at within
    omega
  have weight : 2 ^ (width - wordSize - 1 - position) ∈ (c.lengthen width).pattern.freeWeights := by
    have place : width - 1 - (width - wordSize - 1 - position) - (width - (width - wordSize)) =
        position := by omega
    rw [Pattern.mem_freeWeights, Cube.lengthen, List.length_rotate, fits,
      List.rotate_eq_drop_append_take (fits ▸ Nat.sub_le _ _), List.getElem?_append_right,
      List.length_drop, fits, place]
    · exact ⟨by omega, found⟩
    · rw [List.length_drop, fits]
      omega
  obtain ⟨least, _, lowest⟩ := primesOf.exists_word words inside member (Pattern.lowest_mem_covered _)
  obtain ⟨other, _, larger⟩ :=
    primesOf.exists_word words inside member (Pattern.lowest_or_mem_covered weight)
  have unset := Pattern.testBit_lowest weight
  have small : 2 ^ (width - wordSize - 1 - position) / 2 ^ (width - wordSize) = 0 :=
    Nat.div_eq_of_lt (Nat.pow_lt_pow_right (Nat.lt_succ_self 1) (by omega))
  have same : other = least := by
    rw [← lengthen_div width other, ← lengthen_div width least, larger, lowest, Nat.or_div_two_pow,
      small, Nat.or_zero]
  rw [← lowest, ← same, larger, Nat.testBit_or, Nat.testBit_two_pow_self, Bool.or_true] at unset
  cases unset

theorem freeWeights_lengthen (member : c ∈ primes) : (c.lengthen width).pattern.freeWeights =
    c.pattern.freeWeights.map (2 ^ (width - wordSize) * ·) := by
  have fits : c.pattern.length = width := primesOf.width_eq c member
  refine Pattern.freeWeights_rotate ?_ (primesOf.not_mem_take words inside member)
  rw [fits]
  exact Nat.sub_le _ _

/-- Primes of words are ordered as the cubes of the longer numbers. -/
theorem keyBy_lt (left : c ∈ primes) (right : d ∈ primes)
    (less : (c.lengthen width).pattern.key < (d.lengthen width).pattern.key) :
    c.keyBy shift < d.keyBy shift := by
  have scale : StrictMono (2 ^ (width - wordSize) * ·) :=
    fun _ _ smaller => Nat.mul_lt_mul_of_pos_left smaller (Nat.two_pow_pos _)
  have dashes (e : Cube) : (e.lengthen width).pattern.dashes = e.pattern.dashes :=
    Pattern.dashes_rotate e.pattern _
  have ones (e : Cube) : (e.lengthen width).pattern.ones = e.pattern.ones :=
    Pattern.ones_rotate e.pattern _
  simp only [Pattern.key, Prod.Lex.toLex_lt_toLex, dashes, ones,
    primesOf.lowest_lengthen words inside left, primesOf.lowest_lengthen words inside right,
    primesOf.freeWeights_lengthen words inside left, primesOf.freeWeights_lengthen words inside right,
    map_lt_map_iff scale, (lengthen_strictMono width).lt_iff_lt,
    (lengthen_strictMono width).injective.eq_iff] at less
  simpa only [Cube.keyBy, Prod.Lex.toLex_lt_toLex] using less

theorem pairwise_keyBy : primes.toList.Pairwise fun c d => c.keyBy shift < d.keyBy shift := by
  have sorted := sorted_primes (lt_of_mem_lengthen words inside)
  rw [← primesOf.rename_eq, CubeList.toList_rename, List.pairwise_map] at sorted
  refine sorted.imp_of_mem fun {c d} left right precedes => primesOf.keyBy_lt words inside left right ?_
  have length (e : Cube) (member : e ∈ primes) : (e.lengthen width).pattern.length = width :=
    (Cube.width_lengthen width e).trans (primesOf.width_eq e member)
  exact precedes.key_lt ((length c left).trans (length d right).symm)

end Primes

end PrimeSearch.PrimesOf

namespace Minimized

variable {shift : Shift} {minterms dontcares : IndexSet} {vars : Variables}

/-- The primes are strictly sorted by their keys, so that one stands before another exactly when its key
is smaller. Whoever sorts the same primes in this way obtains the same list. This holds of every outcome.
There is one up to as many variables as a word has bits, namely the outcome for numbers, and over any number
of variables if the shifts wrap or there are no terms. -/
theorem primes_minimizeBy?_sorted (shift : Shift) (minterms dontcares : IndexSet) (vars : Variables)
    (form : Form) (words : ∀ t ∈ minterms ∪ dontcares, t < 2 ^ wordSize) :
    ((minimizeBy? shift minterms dontcares vars form).isSome = true ↔
      shift = .wrapping ∨ vars.size ≤ wordSize ∨ minterms ∪ dontcares = ∅) ∧
    (vars.size ≤ wordSize →
      minimizeBy? shift minterms dontcares vars form = some (minimize minterms dontcares vars form)) ∧
    ∀ m, minimizeBy? shift minterms dontcares vars form = some m →
      (∀ c ∈ m.primes.toList, c.width = vars.size ∧
        IsLeast (c.wordsBy shift) (sInf (c.wordsBy shift))) ∧
      (m.primes.toList.map (Cube.keyBy shift)).Pairwise (· < ·) ∧
      (∀ i j c d, m.primes.get? i = some c → m.primes.get? j = some d →
        (i < j ↔ c.keyBy shift < d.keyBy shift)) ∧
      ∀ cubes : List Cube, (∀ c, c ∈ cubes ↔ c ∈ m.primes.toList) →
        (cubes.map (Cube.keyBy shift)).Pairwise (· < ·) → cubes = m.primes.toList := by
  refine ⟨isSome_minimizeBy?_iff words form, minimizeBy?_of_narrow words shift form, fun m found => ?_⟩
  obtain ⟨primes, primesOf, rfl⟩ := exists_primesOf words found
  have word : ∀ t ∈ terms minterms dontcares vars, t < 2 ^ wordSize := word_of_mem_terms words
  have inside : ∀ t ∈ terms minterms dontcares vars, t < 2 ^ vars.size := inside_of_mem_terms words
  have sorted := primesOf.pairwise_keyBy word inside
  have asymm (c d : Cube) (less : c.keyBy shift < d.keyBy shift) : ¬ d.keyBy shift < c.keyBy shift :=
    less.asymm
  refine ⟨fun c member => ⟨primesOf.width_eq c member, primesOf.isLeast_sInf word inside member⟩,
    List.pairwise_map.mpr sorted, fun i j c d first second => ?_, fun cubes same ordered => ?_⟩
  · exact (lt_iff_of_pairwise asymm sorted first second :)
  · exact eq_of_pairwise asymm (List.pairwise_map.mp ordered) sorted same

theorem primes_minimizeBy?_sorted_wide :
    let minterms := IndexSet.ofList [0, 2, 4, 10, 12, 14]
    let dontcares := IndexSet.ofList [1, 2]
    let vars : Variables := ⟨(List.range 65).map fun place => Char.ofNat (33 + place)⟩
    (∀ t ∈ minterms ∪ dontcares, t < 2 ^ wordSize) ∧
    minimizeBy? .checked minterms dontcares vars .sop = none ∧
    ∃ m, minimizeBy? .wrapping minterms dontcares vars .sop = some m ∧
      m.primes.toList.map (·.origins.toList) =
        [[1], [0, 2], [0, 4], [2, 10], [4, 12], [10, 14], [12, 14]] ∧
      (∀ c ∈ m.primes.toList, c.width = vars.size ∧
        IsLeast (c.wordsBy .wrapping) (sInf (c.wordsBy .wrapping))) ∧
      (m.primes.toList.map (Cube.keyBy .wrapping)).Pairwise (· < ·) ∧
      (∀ i j c d, m.primes.get? i = some c → m.primes.get? j = some d →
        (i < j ↔ c.keyBy .wrapping < d.keyBy .wrapping)) ∧
      ∀ cubes : List Cube, (∀ c, c ∈ cubes ↔ c ∈ m.primes.toList) →
        (cubes.map (Cube.keyBy .wrapping)).Pairwise (· < ·) → cubes = m.primes.toList := by
  intro minterms dontcares vars
  have words : ∀ t ∈ minterms ∪ dontcares, t < 2 ^ wordSize := by decide
  obtain ⟨refused, _, _⟩ := primes_minimizeBy?_sorted .checked minterms dontcares vars .sop words
  obtain ⟨exists_iff, _, sorted⟩ := primes_minimizeBy?_sorted .wrapping minterms dontcares vars .sop words
  obtain ⟨m, found⟩ := Option.isSome_iff_exists.mp (exists_iff.mpr (.inl rfl))
  have outcome : (minimizeBy? .wrapping minterms dontcares vars .sop).map
      (fun m => m.primes.toList.map (·.origins.toList)) =
        some [[1], [0, 2], [0, 4], [2, 10], [4, 12], [10, 14], [12, 14]] := by decide +kernel
  rw [found, Option.map_some, Option.some.injEq] at outcome
  exact ⟨words, Option.not_isSome_iff_eq_none.mp (mt refused.mp (by decide +kernel)), m, found, outcome,
    sorted m found⟩

end Minimized

end Switching
