import Switching.Proofs.Cover
import Switching.Proofs.Letter
import Switching.Proofs.Minimized.Search

/-! # What a minimization finds

The primes of a minimization are the prime patterns of its terms, and the selected ones cover every
required minterm and nothing but terms. Both are statements about all inputs: the two sets of terms
may overlap and may reach beyond the minterms of the variables.
-/

namespace Switching

/-- Distinct letters, in either case, are fewer than the bits of a machine word. -/
theorem Variables.size_lt_wordSize {vars : Variables} (distinct : vars.names.Nodup)
    (letters : ∀ name ∈ vars.names, name.isAlpha = true) : vars.size < Minterm.wordSize := by
  have codes : ∀ code ∈ vars.names.map Char.toNat, code ∈ List.range' 65 26 ++ List.range' 97 26 := by
    intro code member
    obtain ⟨name, listed, rfl⟩ := List.mem_map.mp member
    have letter := isAlpha_iff.mp (letters name listed)
    rw [List.mem_append, List.mem_range'_1, List.mem_range'_1]
    omega
  have different : (vars.names.map Char.toNat).Nodup :=
    distinct.map fun _ _ same => Char.toNat_inj.mp same
  have count := List.Nodup.length_le_of_subset different codes
  rw [List.length_map] at count
  exact Nat.lt_of_le_of_lt count (by decide)

theorem Variables.Lettered.narrow {vars : Variables} (lettered : vars.Lettered) :
    vars.size < Minterm.wordSize :=
  size_lt_wordSize lettered.1 fun name listed => isAlpha_of_isUpper (lettered.2 name listed)

namespace IndexSet

theorem lt_of_mem_filter {terms : IndexSet} {bound : Nat} :
    ∀ t ∈ terms.filter (· < bound), t < bound :=
  fun _ member => of_decide_eq_true (mem_filter.mp member).2

/-- The terms within the range of some variables are the minterms over them. -/
def Ranged (terms : IndexSet) (width : Nat) : Prop :=
  ∀ t ∈ terms, Minterm.inRange t width = true ↔ t < 2 ^ width

namespace Ranged

variable {terms : IndexSet} {width : Nat}

theorem of_narrow (narrow : width < Minterm.wordSize) : terms.Ranged width :=
  fun _ _ => Minterm.inRange_iff narrow

theorem of_words (words : ∀ t ∈ terms, t < 2 ^ Minterm.wordSize) : terms.Ranged width :=
  fun t member => Minterm.inRange_iff_of_word (words t member)

theorem filter_inRange (ranged : terms.Ranged width) :
    terms.filter (Minterm.inRange · width) = terms.filter (· < 2 ^ width) := by
  ext index
  rw [mem_filter, mem_filter, decide_eq_true_iff]
  exact and_congr_right (ranged index)

end Ranged

end IndexSet

namespace Minimized

variable {minterms dontcares : IndexSet} {vars : Variables} {form : Form} {c : Cube}

theorem primes_eq (form : Form) (ranged : (minterms ∪ dontcares).Ranged vars.size) :
    (minimize minterms dontcares vars form).primes =
      PrimeSearch.primes ((minterms ∪ dontcares).filter (· < 2 ^ vars.size)) vars.size := by
  rw [primes_minimize, ranged.filter_inRange]

theorem mem_primes_iff_isolated (form : Form) (ranged : (minterms ∪ dontcares).Ranged vars.size) :
    c ∈ (minimize minterms dontcares vars form).primes ↔ ∃ p : Pattern, p.length = vars.size ∧
      p.Isolated ((minterms ∪ dontcares).filter (· < 2 ^ vars.size)) ∧ c = .ofPattern p := by
  rw [primes_eq form ranged]
  exact PrimeSearch.mem_primes_iff_isolated IndexSet.lt_of_mem_filter

theorem mem_primes (form : Form) (narrow : vars.size < Minterm.wordSize) :
    c ∈ (minimize minterms dontcares vars form).primes ↔ ∃ p : Pattern, p.length = vars.size ∧
      p.IsPrime ((minterms ∪ dontcares).filter (· < 2 ^ vars.size)) ∧ c = .ofPattern p := by
  rw [primes_eq form (.of_narrow narrow)]
  exact PrimeSearch.mem_primes IndexSet.lt_of_mem_filter narrow

theorem width_of_mem_primes (ranged : (minterms ∪ dontcares).Ranged vars.size)
    (member : c ∈ (minimize minterms dontcares vars form).primes) : c.width = vars.size := by
  obtain ⟨p, length, _, rfl⟩ := (mem_primes_iff_isolated form ranged).mp member
  exact length

/-- The primes are the prime patterns of the terms, each listed once with the indices that it covers
as its origins. -/
theorem primes_minimize_exact (minterms dontcares : IndexSet) {vars : Variables} (form : Form)
    (distinct : vars.names.Nodup) (letters : ∀ name ∈ vars.names, name.isAlpha = true) :
    let primes := (minimize minterms dontcares vars form).primes.toList
    let terms := (minterms ∪ dontcares).filter (· < 2 ^ vars.size)
    (primes.map (·.pattern)).Nodup ∧
      (∀ p : Pattern, p ∈ primes.map (·.pattern) ↔ p.length = vars.size ∧ p.IsPrime terms) ∧
      ∀ c ∈ primes, ∀ index, index ∈ c.origins ↔ c.covers index = true := by
  intro primes terms
  have narrow := Variables.size_lt_wordSize distinct letters
  have listed (c : Cube) : c ∈ primes ↔ ∃ p : Pattern,
      p.length = vars.size ∧ p.IsPrime terms ∧ c = .ofPattern p := mem_primes form narrow
  refine ⟨?_, fun p => ⟨fun member => ?_, fun prime => ?_⟩, fun c member index => ?_⟩
  · refine (CubeList.nodup _).map_on fun a left b right same => ?_
    obtain ⟨p, _, _, rfl⟩ := (listed a).mp left
    obtain ⟨q, _, _, rfl⟩ := (listed b).mp right
    exact congrArg Cube.ofPattern same
  · obtain ⟨c, found, rfl⟩ := List.mem_map.mp member
    obtain ⟨p, length, prime, rfl⟩ := (listed c).mp found
    exact ⟨length, prime⟩
  · exact List.mem_map.mpr ⟨_, (listed _).mpr ⟨p, prime.1, prime.2, rfl⟩, rfl⟩
  · obtain ⟨p, length, _, rfl⟩ := (listed c).mp member
    exact (Pattern.covers_iff (length ▸ narrow)).symm

theorem primes_minimize_exact_overlap :
    let vars : Variables := ⟨['A', 'b']⟩
    let primes := (minimize (.ofList [0, 1, 9]) (.ofList [1, 3]) vars .pos).primes.toList
    let terms := (IndexSet.ofList [0, 1, 9] ∪ .ofList [1, 3]).filter (· < 2 ^ vars.size)
    vars.names.Nodup ∧ (∀ name ∈ vars.names, name.isAlpha = true) ∧
      (primes.map (·.pattern)).Nodup ∧
      (∀ p : Pattern, p ∈ primes.map (·.pattern) ↔ p.length = vars.size ∧ p.IsPrime terms) ∧
      ∀ c ∈ primes, ∀ index, index ∈ c.origins ↔ c.covers index = true :=
  have letters : ∀ name ∈ ['A', 'b'], name.isAlpha = true := by simp
  ⟨by decide, letters, primes_minimize_exact _ _ _ (by decide) letters⟩

/-! ## The cover -/

theorem mem_required (form : Form) (ranged : (minterms ∪ dontcares).Ranged vars.size) {m : Nat} :
    m ∈ (minimize minterms dontcares vars form).chart.minterms ↔
      (m ∈ minterms ∧ m ∉ dontcares) ∧ m < 2 ^ vars.size := by
  rw [minterms_chart, IndexSet.mem_toList, IndexSet.mem_filter, IndexSet.mem_diff]
  exact and_congr_right fun required => ranged m (IndexSet.mem_union.mpr (.inl required.1))

/-- Every term is covered by some prime. -/
theorem exists_prime_covering (form : Form) (ranged : (minterms ∪ dontcares).Ranged vars.size)
    {index : Nat} (term : index ∈ minterms ∪ dontcares) (inside : index < 2 ^ vars.size) :
    ∃ position c, (minimize minterms dontcares vars form).primes.get? position = some c ∧
      c.covers index = true := by
  obtain ⟨c, member, covers⟩ := PrimeSearch.exists_covering IndexSet.lt_of_mem_filter
    (IndexSet.mem_filter.mpr ⟨term, decide_eq_true inside⟩)
  rw [← primes_eq form ranged] at member
  obtain ⟨position, listed⟩ := List.mem_iff_getElem?.mp member
  exact ⟨position, c, listed, covers⟩

/-- The selection goes on until every required minterm is covered. -/
theorem run_chosen (minterms dontcares : IndexSet) (form : Form)
    (ranged : (minterms ∪ dontcares).Ranged vars.size) :
    let m := minimize minterms dontcares vars form
    Cover.Run Cube.covers m.primes m.essentials
      (Cover.uncovered Cube.covers m.primes m.essentials m.chart.minterms) m.chosen := by
  dsimp only
  rw [essentials_minimize, chosen_minimize]
  refine Cover.run_select fun index member => ?_
  obtain ⟨⟨term, _⟩, inside⟩ := (mem_required form ranged).mp member
  exact exists_prime_covering form ranged (IndexSet.mem_union.mpr (.inl term)) inside

/-- Essential cubes are cubes of the list. -/
theorem exists_essential {position : Nat}
    (member : position ∈ (minimize minterms dontcares vars form).essentials) :
    ∃ c, (minimize minterms dontcares vars form).primes.get? position = some c := by
  rw [essentials_minimize, chart_minimize] at member
  obtain ⟨m, _, single⟩ := Chart.mem_essentials_build.mp member
  obtain ⟨c, listed, _⟩ := CubeList.mem_covering.mp (single ▸ List.mem_singleton_self position)
  exact ⟨c, listed⟩

theorem nodup_essentials : (minimize minterms dontcares vars form).essentials.Nodup := by
  rw [essentials_minimize]
  exact Chart.nodup_essentials _

/-- Every required minterm is covered. -/
theorem exists_covering (form : Form) (narrow : vars.size < Minterm.wordSize) {index : Nat}
    (term : index ∈ minterms) (required : index ∉ dontcares) (inside : index < 2 ^ vars.size) :
    ∃ c ∈ (minimize minterms dontcares vars form).cover, c.covers index = true := by
  let m := minimize minterms dontcares vars form
  have run := run_chosen minterms dontcares form (.of_narrow narrow)
  have row : index ∈ m.chart.minterms :=
    (mem_required form (.of_narrow narrow)).mpr ⟨⟨term, required⟩, inside⟩
  have selected : ∃ position ∈ m.chosen, ∃ c, m.primes.get? position = some c ∧
      c.covers index = true := by
    by_cases left : index ∈ Cover.uncovered Cube.covers m.primes m.essentials m.chart.minterms
    · exact run.exists_covers left
    · have found : ∃ position ∈ m.essentials, ∃ c, m.primes.get? position = some c ∧
          c.covers index = true := by
        by_contra missed
        push Not at missed
        exact left (Cover.mem_uncovered.mpr ⟨row, fun position chosen c listed =>
          Bool.eq_false_iff.mpr (missed position chosen c listed)⟩)
      obtain ⟨position, essential, cube⟩ := found
      exact ⟨position, run.isPrefix.subset essential, cube⟩
  obtain ⟨position, chosen, c, listed, covers⟩ := selected
  refine ⟨c, ?_, covers⟩
  rw [cover_minimize]
  exact List.mem_filterMap.mpr ⟨position, chosen, listed⟩

/-- The selected cubes are primes. -/
theorem mem_primes_of_mem_cover (member : c ∈ (minimize minterms dontcares vars form).cover) :
    c ∈ (minimize minterms dontcares vars form).primes := by
  rw [cover_minimize] at member
  obtain ⟨position, _, listed⟩ := List.mem_filterMap.mp member
  exact List.mem_of_getElem? listed

theorem mem_terms_of_covers (narrow : vars.size < Minterm.wordSize) {index : Nat}
    (member : c ∈ (minimize minterms dontcares vars form).cover) (covers : c.covers index = true) :
    index < 2 ^ vars.size ∧ (index ∈ minterms ∨ index ∈ dontcares) := by
  obtain ⟨p, length, prime, rfl⟩ := (mem_primes form narrow).mp (mem_primes_of_mem_cover member)
  obtain ⟨term, inside⟩ := IndexSet.mem_filter.mp (prime.1 index covers)
  exact ⟨of_decide_eq_true inside, IndexSet.mem_union.mp term⟩

/-- What is selected are positions of primes, each once, and the cover is what stands there. -/
theorem chosen_positions (minterms dontcares : IndexSet) (form : Form)
    (narrow : vars.size < Minterm.wordSize) :
    let m := minimize minterms dontcares vars form
    (∀ position ∈ m.chosen, ∃ c, m.primes.get? position = some c) ∧ m.chosen.Nodup ∧
      m.cover.map some = m.chosen.map m.primes.get? := by
  intro m
  have run := run_chosen minterms dontcares form (.of_narrow narrow)
  have valid := run.exists_cube fun _ member => exists_essential member
  have cover : m.cover = m.chosen.filterMap m.primes.get? := cover_minimize
  have distinct : m.essentials.Nodup := nodup_essentials
  refine ⟨valid, run.nodup distinct, ?_⟩
  rw [cover]
  have listed : ∀ position ∈ m.chosen, ∃ c, m.primes.get? position = some c := valid
  generalize m.chosen = positions at listed
  induction positions with
  | nil => rfl
  | cons position positions ih =>
    obtain ⟨c, found⟩ := listed position (List.mem_cons_self ..)
    rw [List.filterMap_cons_some found, List.map_cons, List.map_cons, found,
      ih fun other member => listed other (List.mem_cons_of_mem _ member)]

/-- The selected cubes cover every required minterm and only terms. They are the primes at the chosen
positions, which are valid and distinct. -/
theorem cover_minimize_exact (minterms dontcares : IndexSet) {vars : Variables} (form : Form)
    (distinct : vars.names.Nodup) (letters : ∀ name ∈ vars.names, name.isAlpha = true) :
    let m := minimize minterms dontcares vars form
    (∀ index < 2 ^ vars.size, index ∈ minterms → index ∉ dontcares →
      ∃ c ∈ m.cover, c.covers index = true) ∧
    (∀ c ∈ m.cover, ∀ index, c.covers index = true →
      index < 2 ^ vars.size ∧ (index ∈ minterms ∨ index ∈ dontcares)) ∧
    m.cover.map some = m.chosen.map m.primes.get? ∧
    (∀ position ∈ m.chosen, position < m.primes.size) ∧ m.chosen.Nodup := by
  intro m
  have narrow := Variables.size_lt_wordSize distinct letters
  obtain ⟨valid, different, same⟩ :=
    chosen_positions minterms dontcares form narrow
  refine ⟨fun index inside term free => ?_, fun c member index covers => ?_, same, ?_, different⟩
  · exact exists_covering form narrow term free inside
  · exact mem_terms_of_covers narrow member covers
  · intro position member
    obtain ⟨c, listed⟩ := valid position member
    exact CubeList.lt_size_of_get? listed

theorem cover_minimize_exact_overlap :
    let vars : Variables := ⟨['A', 'b']⟩
    let minterms := IndexSet.ofList [0, 1, 9]
    let dontcares := IndexSet.ofList [1, 3]
    let m := minimize minterms dontcares vars .pos
    vars.names.Nodup ∧ (∀ name ∈ vars.names, name.isAlpha = true) ∧
    (∀ index < 2 ^ vars.size, index ∈ minterms → index ∉ dontcares →
      ∃ c ∈ m.cover, c.covers index = true) ∧
    (∀ c ∈ m.cover, ∀ index, c.covers index = true →
      index < 2 ^ vars.size ∧ (index ∈ minterms ∨ index ∈ dontcares)) ∧
    m.cover.map some = m.chosen.map m.primes.get? ∧
    (∀ position ∈ m.chosen, position < m.primes.size) ∧ m.chosen.Nodup :=
  have letters : ∀ name ∈ ['A', 'b'], name.isAlpha = true := by simp
  ⟨by decide, letters, cover_minimize_exact _ _ _ (by decide) letters⟩

end Minimized

end Switching
