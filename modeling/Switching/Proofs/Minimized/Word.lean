import Switching.Minimized.Word
import Switching.Proofs.Cube.Word
import Switching.Proofs.Minimized
import Switching.Proofs.PrimeSearch.Loop

/-! # Minimizing words

Among words, the search finds primes whose cubes of longer numbers are the primes of these numbers
(`PrimesOf`). So whatever holds of the search among numbers, over any number of variables, can be read off
for words. Up to 64 variables the outcome is that of `minimize` (`minimizeBy?_of_narrow`). Over more there is
one when the shifts wrap, or when there are no terms (`isSome_minimizeBy?_iff`).
-/

namespace Switching

open Minterm

namespace PrimeSearch

variable {shift : Shift} {terms : IndexSet} {width index : Nat} {primes : CubeList}

/-- Cubes that are renamed to those of some terms are filed, and the primes that are found among them are
renamed to those of the terms. -/
theorem search_rename {f : Cube → Cube} (renames : Renames f) {cubes : List Cube}
    (inside : ∀ t ∈ terms, t < 2 ^ width)
    (same : cubes.map f = terms.toList.map (Cube.ofMinterm · width)) :
    ∃ groups primes, cubes.foldlM file? (List.replicate (width + 1) []) = some groups ∧
      search? (width + 1) groups ∅ = some primes ∧
      primes.rename renames = PrimeSearch.primes terms width := by
  have blank : (List.replicate (width + 1) []).map (List.map f) = List.replicate (width + 1) [] := by
    rw [List.map_replicate, List.map_nil]
  have filed := fileAll?_eq terms width
  rw [fileAll?, ← same, ← blank, foldlM_map_comm (file?_rename renames)] at filed
  obtain ⟨groups, files, renamed⟩ := Option.map_eq_some_iff.mp filed
  have found := search?_start inside
  rw [← renamed, ← CubeList.rename_empty renames, search?_rename renames] at found
  obtain ⟨primes, search, result⟩ := Option.map_eq_some_iff.mp found
  exact ⟨groups, primes, files, search, result⟩

/-- The longer numbers of the terms over some variables are terms over them. -/
theorem lt_of_mem_lengthen (words : ∀ t ∈ terms, t < 2 ^ wordSize) (inside : ∀ t ∈ terms, t < 2 ^ width) :
    ∀ t ∈ terms.lengthen width, t < 2 ^ width := by
  intro t member
  obtain ⟨word, listed, rfl⟩ := IndexSet.mem_lengthen.mp member
  exact lengthen_lt (words word listed) (inside word listed)

/-- If the shifts wrap there are primes, and they are renamed to those of the longer numbers. -/
theorem primesBy?_wrapping (words : ∀ t ∈ terms, t < 2 ^ wordSize)
    (inside : ∀ t ∈ terms, t < 2 ^ width) : ∃ primes, primesBy? .wrapping terms width = some primes ∧
      primes.rename (Cube.renames_lengthen width) =
        PrimeSearch.primes (terms.lengthen width) width := by
  have longer := lt_of_mem_lengthen words inside
  let cubes : List Cube := terms.toList.map fun t => ⟨(wordBits width t).map some, .singleton t⟩
  have same : cubes.map (Cube.lengthen width) =
      (terms.lengthen width).toList.map (Cube.ofMinterm · width) := by
    rw [List.map_map, IndexSet.lengthen, List.map_map]
    exact List.map_congr_left fun t _ => Cube.lengthen_ofWord width t
  obtain ⟨groups, primes, files, search, renamed⟩ :=
    search_rename (Cube.renames_lengthen width) longer same
  refine ⟨primes, ?_, renamed⟩
  rw [primesBy?, mapM_eq_some fun t member => Cube.ofWord?_wrapping (words t member)]
  change (cubes.foldlM file? (List.replicate (width + 1) [])).bind (search? (width + 1) · ∅) = _
  rw [files, Option.bind_some, search]

theorem primesBy?_empty (shift : Shift) (width : Nat) : primesBy? shift ∅ width = some ∅ := by
  have files : some (List.replicate (width + 1) []) = some (start ∅ width) := fileAll?_eq ∅ width
  change search? (width + 1) (List.replicate (width + 1) []) ∅ = some ∅
  rw [Option.some.inj files, search?_start fun t member => absurd member (IndexSet.not_mem_empty t),
    primes_empty]

/-- Up to as many variables as a word has bits, no shift is refused and the primes are those of the
numbers. -/
theorem primesBy?_of_narrow (shift : Shift) (words : ∀ t ∈ terms, t < 2 ^ wordSize)
    (inside : ∀ t ∈ terms, t < 2 ^ width) (narrow : width ≤ wordSize) :
    primesBy? shift terms width = some (PrimeSearch.primes terms width) := by
  have files := fileAll?_eq terms width
  rw [fileAll?] at files
  rw [primesBy?, mapM_eq_some fun t member => Cube.ofWord?_of_narrow shift (words t member) narrow]
  change (List.foldlM file? (List.replicate (width + 1) []) _).bind (search? (width + 1) · ∅) = _
  rw [files, Option.bind_some, search?_start inside]

/-- Over more variables, the first term is refused if shifts are. -/
theorem primesBy?_checked_of_wide (wide : wordSize < width) (some : terms ≠ ∅) :
    primesBy? .checked terms width = none := by
  obtain ⟨_ | ⟨t, rest⟩, sorted⟩ := terms
  · exact absurd rfl some
  · have fails : (t :: rest).mapM (Cube.ofWord? .checked · width) = none :=
      mapM_eq_none (Cube.ofWord?_checked_of_wide t wide)
    rw [primesBy?, fails]
    rfl

/-- What is known of the primes of words: the cubes of the longer numbers are the primes of these, and the
primes cover the words whose longer numbers the cubes cover. -/
structure PrimesOf (shift : Shift) (terms : IndexSet) (width : Nat) (primes : CubeList) : Prop where
  rename_eq : primes.rename (Cube.renames_lengthen width) =
    PrimeSearch.primes (terms.lengthen width) width
  width_eq : ∀ c ∈ primes, c.width = width
  covers_eq : ∀ c ∈ primes, ∀ index < 2 ^ wordSize,
    c.coversBy shift index = (c.lengthen width).covers (Minterm.lengthen width index)

namespace PrimesOf

variable {c : Cube}

theorem of_rename (longer : ∀ t ∈ terms.lengthen width, t < 2 ^ width)
    (renamed : primes.rename (Cube.renames_lengthen width) =
      PrimeSearch.primes (terms.lengthen width) width)
    (unrefused : shift = .wrapping ∨ width ≤ wordSize) : PrimesOf shift terms width primes := by
  have width_eq : ∀ c ∈ primes, c.width = width := by
    intro c member
    have listed : c.lengthen width ∈ PrimeSearch.primes (terms.lengthen width) width :=
      renamed ▸ List.mem_map_of_mem member
    obtain ⟨p, length, _, equal⟩ := (mem_primes_iff_isolated longer).mp listed
    rw [← Cube.width_lengthen width, equal]
    exact length
  refine ⟨renamed, width_eq, fun c member index word => ?_⟩
  obtain rfl := width_eq c member
  rcases unrefused with rfl | narrow
  · exact Cube.coversBy_wrapping_eq word
  · rw [Cube.coversBy_of_narrow shift word narrow, Cube.lengthen_of_narrow narrow,
      Minterm.lengthen_of_narrow narrow]

/-- Whatever primes of words are found, this is known of them. -/
theorem of_primesBy? (words : ∀ t ∈ terms, t < 2 ^ wordSize) (inside : ∀ t ∈ terms, t < 2 ^ width)
    (found : primesBy? shift terms width = some primes) : PrimesOf shift terms width primes := by
  have longer := lt_of_mem_lengthen words inside
  rcases Nat.lt_or_ge wordSize width with wide | narrow
  · cases shift with
    | wrapping =>
      obtain ⟨others, same, renamed⟩ := primesBy?_wrapping words inside
      obtain rfl := Option.some.inj (same.symm.trans found)
      exact of_rename longer renamed (.inl rfl)
    | checked =>
      by_cases empty : terms = ∅
      · subst empty
        obtain rfl := Option.some.inj ((primesBy?_empty .checked width).symm.trans found)
        exact ⟨(primes_empty width).symm, nofun, nofun⟩
      · cases (primesBy?_checked_of_wide wide empty).symm.trans found
  · have numbers := primesBy?_of_narrow shift words inside narrow
    obtain rfl := Option.some.inj (numbers.symm.trans found)
    refine of_rename longer (CubeList.ext ?_) (.inr narrow)
    rw [CubeList.toList_rename, IndexSet.lengthen_of_narrow narrow]
    exact (List.map_congr_left fun c _ => Cube.lengthen_of_narrow narrow).trans (List.map_id _)

/-- Every term is covered by some prime. -/
theorem exists_covering (primesOf : PrimesOf shift terms width primes)
    (words : ∀ t ∈ terms, t < 2 ^ wordSize) (inside : ∀ t ∈ terms, t < 2 ^ width)
    (term : index ∈ terms) :
    ∃ position c, primes.get? position = some c ∧ c.coversBy shift index = true := by
  obtain ⟨d, member, covers⟩ := PrimeSearch.exists_covering (lt_of_mem_lengthen words inside)
    (IndexSet.lengthen_mem_lengthen.mpr term)
  rw [← primesOf.rename_eq] at member
  obtain ⟨c, listed, rfl⟩ := List.mem_map.mp member
  obtain ⟨position, found⟩ := List.mem_iff_getElem?.mp listed
  exact ⟨position, c, found, (primesOf.covers_eq c listed index (words index term)).trans covers⟩

end PrimesOf

end PrimeSearch

namespace Minimized

variable {shift : Shift} {minterms dontcares : IndexSet} {vars : Variables} {form : Form}

theorem ofPrimes_congr {covers other : Cube → Nat → Bool} {primes : CubeList} {required : IndexSet}
    (same : ∀ m ∈ required, ∀ c ∈ primes, covers c m = other c m) (vars : Variables) (form : Form) :
    ofPrimes covers primes required vars form = ofPrimes other primes required vars form := by
  have chart := Chart.buildBy_congr same
  have chosen : Cover.select covers primes (Chart.buildBy other primes required) =
      Cover.select other primes (Chart.buildBy other primes required) := by
    refine Cover.select_congr fun m row => same m ?_
    rwa [Chart.minterms_buildBy] at row
  simp only [ofPrimes, chart, chosen]

section Words

variable (words : ∀ t ∈ minterms ∪ dontcares, t < 2 ^ wordSize)

include words

theorem word_of_mem_terms : ∀ t ∈ terms minterms dontcares vars, t < 2 ^ wordSize :=
  fun t member => words t (IndexSet.mem_filter.mp member).1

theorem inside_of_mem_terms : ∀ t ∈ terms minterms dontcares vars, t < 2 ^ vars.size := by
  intro t member
  obtain ⟨listed, inside⟩ := IndexSet.mem_filter.mp member
  exact (inRange_iff_of_word (words t listed)).mp inside

omit words in
theorem mem_terms_of_required {t : Nat} (member : t ∈ required minterms dontcares vars) :
    t ∈ terms minterms dontcares vars := by
  obtain ⟨listed, inside⟩ := IndexSet.mem_filter.mp member
  exact IndexSet.mem_filter.mpr
    ⟨IndexSet.mem_union.mpr (.inl (IndexSet.mem_diff.mp listed).1), inside⟩

omit words in
/-- What is answered without a search is what a search would find. -/
theorem minimizeBy?_eq (shift : Shift) (minterms dontcares : IndexSet) (vars : Variables) (form : Form) :
    minimizeBy? shift minterms dontcares vars form =
      (PrimeSearch.primesBy? shift (terms minterms dontcares vars) vars.size).map fun primes =>
        ofPrimes (Cube.coversBy shift) primes (required minterms dontcares vars) vars form := by
  rw [minimizeBy?]
  split
  · next empty =>
    rw [Bool.and_eq_true, IndexSet.isEmpty_iff, IndexSet.isEmpty_iff] at empty
    obtain ⟨rfl, rfl⟩ := empty
    have none : terms ∅ ∅ vars = ∅ := rfl
    rw [none, PrimeSearch.primesBy?_empty]
    rfl
  · rfl

/-- Up to as many variables as a word has bits, minimizing words is minimizing their numbers. -/
theorem minimizeBy?_of_narrow (shift : Shift) (form : Form) (narrow : vars.size ≤ wordSize) :
    minimizeBy? shift minterms dontcares vars form = some (minimize minterms dontcares vars form) := by
  have inside : ∀ t ∈ terms minterms dontcares vars, t < 2 ^ vars.size := inside_of_mem_terms words
  have primes := PrimeSearch.primesBy?_of_narrow shift (word_of_mem_terms words) inside narrow
  rw [minimizeBy?_eq, primes, Option.map_some, minimize_eq_search, search, Option.some.injEq]
  refine ofPrimes_congr (fun m member c listed => ?_) vars form
  obtain ⟨p, length, _, rfl⟩ := (PrimeSearch.mem_primes_iff_isolated inside).mp listed
  have word := word_of_mem_terms words m (mem_terms_of_required member)
  exact Cube.coversBy_of_narrow shift word (length.trans_le narrow)

/-- There is an outcome unless shifts are refused and a term is read over more variables than a word has
bits. -/
theorem isSome_minimizeBy?_iff (form : Form) :
    (minimizeBy? shift minterms dontcares vars form).isSome = true ↔
      shift = .wrapping ∨ vars.size ≤ wordSize ∨ minterms ∪ dontcares = ∅ := by
  have word : ∀ t ∈ terms minterms dontcares vars, t < 2 ^ wordSize := word_of_mem_terms words
  have inside : ∀ t ∈ terms minterms dontcares vars, t < 2 ^ vars.size := inside_of_mem_terms words
  rw [minimizeBy?_eq, Option.isSome_map]
  rcases Nat.lt_or_ge wordSize vars.size with wide | narrow
  · cases shift with
    | wrapping =>
      obtain ⟨primes, found, _⟩ := PrimeSearch.primesBy?_wrapping word inside
      simp [found]
    | checked =>
      have all : terms minterms dontcares vars = minterms ∪ dontcares := by
        ext t
        rw [terms, IndexSet.mem_filter, inRange, decide_eq_true wide.le, Bool.true_or]
        exact and_iff_left rfl
      rw [all]
      by_cases empty : minterms ∪ dontcares = ∅
      · simp [empty, PrimeSearch.primesBy?_empty]
      · simp [empty, PrimeSearch.primesBy?_checked_of_wide wide empty, Nat.not_le.mpr wide]
  · simp [PrimeSearch.primesBy?_of_narrow shift word inside narrow, narrow]

/-- Every outcome is that of the selection from primes of words. -/
theorem exists_primesOf {m : Minimized}
    (found : minimizeBy? shift minterms dontcares vars form = some m) : ∃ primes,
      PrimeSearch.PrimesOf shift (terms minterms dontcares vars) vars.size primes ∧
      m = ofPrimes (Cube.coversBy shift) primes (required minterms dontcares vars) vars form := by
  rw [minimizeBy?_eq, Option.map_eq_some_iff] at found
  obtain ⟨primes, search, rfl⟩ := found
  exact ⟨primes, .of_primesBy? (word_of_mem_terms words) (inside_of_mem_terms words) search, rfl⟩

end Words

end Minimized

end Switching
