import Switching.Assignment.History
import Switching.Proofs.Assignment
import Switching.Proofs.Variables.Reading

/-! # Assignments after changes

After any changes a letter has the value that the last change of it gave to it, and nothing else matters
(`get?_build`). The letters that have a value are listed in alphabetical order (`mem_pairs_iff`,
`sorted_pairs`). Two sets of places say the same as the assignment that they encode, and every change of
both sets is a change of this assignment (`LetterSets.Encodes`). So they are a faithful table of the
letters (`LetterSets.history_exact`).
-/

namespace Switching

theorem slot?_of_not_isAlpha {c : Char} (noLetter : c.isAlpha = false) : Letter.slot? c = none := by
  rw [← Option.not_isSome_iff_eq_none, isSome_slot?_iff, noLetter]
  exact Bool.false_ne_true

namespace Assignment

variable {env other : Assignment} {name : Char} {value : Bool} {vars : Variables} {index : Nat}

theorem get?_of_not_isAlpha (noLetter : name.isAlpha = false) : env.get? name = none := by
  rw [get?, slot?_of_not_isAlpha noLetter, Option.bind_none]

/-- A letter can be asked for in either case. -/
theorem get?_congr {first second : Char} (same : first.toUpper = second.toUpper) :
    env.get? first = env.get? second := by
  rw [get?, get?, ← slot?_toUpper first, same, slot?_toUpper]

/-- The variables of an index are read back as its bits. -/
theorem map_get?_ofIndex_of_distinct (letters : ∀ name ∈ vars.names, name.isAlpha = true)
    (distinct : (vars.names.map Char.toUpper).Nodup) (index : Nat) :
    vars.names.map (ofIndex vars index).get? = (Minterm.bits vars.size index).map some := by
  refine List.ext_getElem (by simp [Variables.size]) fun position left right => ?_
  have inside : position < vars.names.length := by simpa using left
  have listed : vars.names[position]? = some vars.names[position] := List.getElem?_eq_getElem inside
  rw [List.getElem_map, get?_ofIndex_of_distinct letters distinct index listed, List.getElem_map,
    Minterm.getElem_bits]

/-- So the index that they spell is the one over the variables. -/
theorem exists_bits_ofIndex (letters : ∀ name ∈ vars.names, name.isAlpha = true)
    (distinct : (vars.names.map Char.toUpper).Nodup) (index : Nat) :
    ∃ bits, vars.names.map (ofIndex vars index).get? = bits.map some ∧
      Minterm.ofBits bits = index % 2 ^ vars.size := by
  have upper : Variables.Lettered ⟨vars.names.map Char.toUpper⟩ := by
    refine ⟨distinct, fun name member => ?_⟩
    obtain ⟨original, listed, rfl⟩ := List.mem_map.mp member
    exact isUpper_toUpper (letters original listed)
  have short : vars.size ≤ Minterm.wordSize := by
    have most := upper.size_le
    rw [Variables.size, List.length_map] at most
    exact most.trans (by decide)
  refine ⟨_, map_get?_ofIndex_of_distinct letters distinct index, ?_⟩
  rw [Minterm.ofBits_eq ((Minterm.length_bits ..).trans_le short), Minterm.value_bits]

/-! ## Changes -/

theorem assign_of_not_isAlpha (noLetter : name.isAlpha = false) (env : Assignment)
    (value : Option Bool) : env.assign name value = env := by
  rw [assign, slot?_of_not_isAlpha noLetter]

theorem get?_change (env : Assignment) (change : Change) (name : Char) :
    (env.change change).get? name =
      if name.isAlpha = true ∧ change.concerns name = true then change.value? else env.get? name := by
  have assigned : env.change change = env.assign change.name change.value? := by
    cases change <;> rfl
  rw [assigned, get?_assign]
  refine if_congr ?_ rfl rfl
  rw [Change.concerns, beq_iff_eq, isSome_slot?_iff]
  constructor
  · rintro ⟨letter, same⟩
    have known : name.isAlpha = true := isSome_slot?_iff.mp (same ▸ isSome_slot?_iff.mpr letter)
    exact ⟨known, (slot?_eq_iff letter known).mp same⟩
  · rintro ⟨letter, same⟩
    have places : Letter.slot? change.name = Letter.slot? name := by
      rw [← slot?_toUpper change.name, same, slot?_toUpper]
    exact ⟨isSome_slot?_iff.mp (places ▸ isSome_slot?_iff.mpr letter), places⟩

theorem Change.last?_concat (changes : List Change) (change : Change) (name : Char) :
    last? (changes ++ [change]) name =
      if change.concerns name = true then some change else last? changes name := by
  rw [last?, last?, List.filter_append]
  split
  · rename_i made
    rw [List.filter_cons_of_pos (by exact made), List.filter_nil, List.getLast?_concat]
  · rename_i other
    rw [List.filter_cons_of_neg (by exact other), List.filter_nil, List.append_nil]

/-- The last change of a letter decides. -/
theorem get?_foldl_change (changes : List Change) (letter : name.isAlpha = true) :
    (changes.foldl change env).get? name =
      (Change.last? changes name).elim (env.get? name) Change.value? := by
  induction changes using List.reverseRecOn with
  | nil => rfl
  | append_singleton changes last ih =>
    rw [List.foldl_append, List.foldl_cons, List.foldl_nil, get?_change, Change.last?_concat]
    by_cases made : last.concerns name = true
    · rw [if_pos ⟨letter, made⟩, if_pos made, Option.elim_some]
    · rw [if_neg fun both => made both.2, if_neg made, ih]

theorem get?_ofSource {source : Source} (distinct : source.Distinct) (letter : name.isAlpha = true) :
    (ofSource source).get? name = source.value? name := by
  cases source with
  | empty => exact get?_empty name
  | index vars index =>
    obtain ⟨letters, distinct⟩ := distinct
    rw [Source.value?]
    cases found : vars.names.findIdx? (·.toUpper == name.toUpper) with
    | none =>
      have absent := List.findIdx?_eq_none_iff.mp found
      refine (get?_foldl_of_ne fun pair member same => ?_).trans (get?_empty name)
      have listed := (List.of_mem_zip member).1
      have equal := (slot?_eq_iff (letters _ listed) letter).mp same
      exact Bool.eq_false_iff.mp (absent _ listed) (beq_iff_eq.mpr equal)
    | some position =>
      obtain ⟨inside, same, _⟩ := List.findIdx?_eq_some_iff_getElem.mp found
      have listed : vars.names[position]? = some vars.names[position] :=
        List.getElem?_eq_getElem inside
      rw [ofSource, get?_congr (beq_iff_eq.mp same).symm,
        get?_ofIndex_of_distinct letters distinct index listed, Option.map_some]

/-- A letter has the value that its history says. -/
theorem get?_build {source : Source} (distinct : source.Distinct) (changes : List Change)
    (name : Char) : (build source changes).get? name = source.valueAfter changes name := by
  rw [Source.valueAfter]
  split
  · rename_i letter
    rw [build, get?_foldl_change changes letter, get?_ofSource distinct letter]
  · rename_i noLetter
    exact get?_of_not_isAlpha (Bool.eq_false_iff.mpr noLetter)

/-! ## Listing -/

theorem mem_pairs_iff :
    (name, value) ∈ env.pairs ↔ name.isUpper = true ∧ env.get? name = some value := by
  have upper : ∀ slot, (Letter.ofSlot slot).isUpper = true := by decide
  simp only [pairs, List.mem_filterMap, List.mem_finRange, true_and, Option.map_eq_some_iff,
    Prod.mk.injEq]
  constructor
  · rintro ⟨slot, _, stored, rfl, rfl⟩
    rw [get?, Letter.slot?_ofSlot, Option.bind_some]
    exact ⟨upper slot, stored⟩
  · rintro ⟨isUpper, known⟩
    obtain ⟨slot, place, rfl⟩ := slot?_of_isUpper isUpper
    rw [get?, place, Option.bind_some] at known
    exact ⟨slot, value, known, rfl, rfl⟩

theorem ofSlot_lt_ofSlot {slot other : Fin Letter.alphabetSize} (less : slot < other) :
    Letter.ofSlot slot < Letter.ofSlot other := by
  have code : ∀ slot, (Letter.ofSlot slot).toNat = 65 + slot := by decide
  rw [Char.lt_def, UInt32.lt_iff_toNat_lt]
  change (Letter.ofSlot slot).toNat < (Letter.ofSlot other).toNat
  rw [code, code]
  exact Nat.add_lt_add_left less 65

theorem sorted_pairs (env : Assignment) : (env.pairs.map Prod.fst).Pairwise (· < ·) := by
  rw [List.pairwise_map, pairs, List.pairwise_filterMap]
  refine (List.pairwise_lt_finRange _).imp fun less first left second right => ?_
  obtain ⟨_, _, rfl⟩ := Option.map_eq_some_iff.mp left
  obtain ⟨_, _, rfl⟩ := Option.map_eq_some_iff.mp right
  exact ofSlot_lt_ofSlot less

/-- Assignments are told apart by the letters and values that they list. -/
theorem pairs_inj : env.pairs = other.pairs ↔ env = other := by
  refine ⟨fun same => ext_get? fun name => ?_, congrArg pairs⟩
  by_cases letter : name.isAlpha = true
  · have upper := isUpper_toUpper letter
    have stored {env : Assignment} : env.get? name = env.get? name.toUpper :=
      get?_congr (Char.toUpper_toUpper_eq_toUpper name).symm
    refine Option.ext fun value => ?_
    have listed {env : Assignment} : (name.toUpper, value) ∈ env.pairs ↔
        env.get? name.toUpper = some value := mem_pairs_iff.trans (and_iff_right upper)
    rw [stored, stored, ← listed, same, listed]
  · have noLetter := Bool.eq_false_iff.mpr letter
    rw [get?_of_not_isAlpha noLetter, get?_of_not_isAlpha noLetter]

end Assignment

namespace LetterSets

open Assignment (Change Source)

variable {sets others : LetterSets} {env other : Assignment} {name : Char} {value : Option Bool}
  {places : IndexSet} {test : Option Bool → Bool}

/-- A set holds the places of the letters whose values pass a test. -/
def Marks (places : IndexSet) (env : Assignment) (test : Option Bool → Bool) : Prop :=
  ∀ place, place ∈ places ↔ ∃ inside : place < Letter.alphabetSize, test env.slots[place] = true

theorem Marks.insert (marks : Marks places env test) (slot : Fin Letter.alphabetSize)
    (passes : test value = true) : Marks (places.insert slot) ⟨env.slots.set slot value slot.isLt⟩ test := by
  intro place
  rw [IndexSet.mem_insert, marks place]
  simp only [Vector.getElem_set]
  by_cases here : slot.val = place
  · subst here
    simp [passes]
  · simp [here, Ne.symm here]

theorem Marks.erase (marks : Marks places env test) (slot : Fin Letter.alphabetSize)
    (fails : test value = false) : Marks (places.erase slot) ⟨env.slots.set slot value slot.isLt⟩ test := by
  intro place
  rw [IndexSet.mem_erase, marks place]
  simp only [Vector.getElem_set]
  by_cases here : slot.val = place
  · subst here
    simp [fails]
  · simp [here, Ne.symm here]

/-- The two sets hold the letters that have a value in an assignment and those that are true there. -/
structure Encodes (sets : LetterSets) (env : Assignment) : Prop where
  assigned : Marks sets.assigned env Option.isSome
  values : Marks sets.values env (· == some true)

theorem Encodes.empty : (∅ : LetterSets).Encodes ∅ := by
  have blank {place : Nat} (inside : place < Letter.alphabetSize) :
      (∅ : Assignment).slots[place] = none := Vector.getElem_replicate ..
  constructor
  all_goals
    refine fun place => iff_of_false (IndexSet.not_mem_empty place) ?_
    rintro ⟨inside, known⟩
    rw [blank] at known
    cases known

namespace Encodes

variable (encodes : sets.Encodes env)

include encodes

/-- A letter is given a value in both sets. -/
theorem set (name : Char) (value : Bool) : (sets.set name value).Encodes (env.set name value) := by
  rw [LetterSets.set, Assignment.set, Assignment.assign]
  cases Letter.slot? name with
  | none => exact encodes
  | some slot =>
    refine ⟨encodes.assigned.insert slot rfl, ?_⟩
    cases value with
    | true => exact encodes.values.insert slot rfl
    | false => exact encodes.values.erase slot rfl

/-- The value of a letter is taken away in both sets. -/
theorem erase (name : Char) : (sets.erase name).Encodes (env.erase name) := by
  rw [LetterSets.erase, Assignment.erase, Assignment.assign]
  cases Letter.slot? name with
  | none => exact encodes
  | some slot => exact ⟨encodes.assigned.erase slot rfl, encodes.values.erase slot rfl⟩

theorem change (change : Change) : (sets.change change).Encodes (env.change change) := by
  cases change with
  | set name value => exact encodes.set name value
  | erase name => exact encodes.erase name

theorem foldl_change (changes : List Change) :
    (changes.foldl LetterSets.change sets).Encodes (changes.foldl Assignment.change env) := by
  induction changes generalizing sets env with
  | nil => exact encodes
  | cons change changes ih => exact ih (encodes.change change)

theorem foldl_set (pairs : List (Char × Bool)) :
    (pairs.foldl (fun sets pair => sets.set pair.1 pair.2) sets).Encodes
      (pairs.foldl (fun env pair => env.set pair.1 pair.2) env) := by
  induction pairs generalizing sets env with
  | nil => exact encodes
  | cons pair pairs ih => exact ih (encodes.set pair.1 pair.2)

theorem mem_assigned_iff (slot : Fin Letter.alphabetSize) :
    slot.val ∈ sets.assigned ↔ (env.slots.get slot).isSome = true :=
  (encodes.assigned slot).trans (exists_prop_of_true slot.isLt)

theorem mem_values_iff (slot : Fin Letter.alphabetSize) :
    slot.val ∈ sets.values ↔ env.slots.get slot = some true :=
  (encodes.values slot).trans ((exists_prop_of_true slot.isLt).trans beq_iff_eq)

theorem get?_eq (name : Char) : sets.get? name = env.get? name := by
  rw [LetterSets.get?, Assignment.get?]
  refine Option.bind_congr fun slot _ => ?_
  simp only [encodes.mem_assigned_iff, encodes.mem_values_iff]
  change _ = env.slots.get slot
  cases env.slots.get slot with
  | none => rfl
  | some value => cases value <;> rfl

/-- The places of the letters that have a value, from the first to the last. -/
theorem toList_assigned : sets.assigned.toList =
    ((List.finRange Letter.alphabetSize).filter fun slot => (env.slots.get slot).isSome).map Fin.val := by
  have sorted : (((List.finRange Letter.alphabetSize).filter
      fun slot => (env.slots.get slot).isSome).map Fin.val).Pairwise (· < ·) :=
    List.pairwise_map.mpr ((List.pairwise_lt_finRange _).filter _)
  have same : sets.assigned = ⟨_, sorted⟩ := by
    ext place
    rw [encodes.assigned place, ← IndexSet.mem_toList, List.mem_map]
    constructor
    · rintro ⟨inside, known⟩
      exact ⟨⟨place, inside⟩, List.mem_filter.mpr ⟨List.mem_finRange _, known⟩, rfl⟩
    · rintro ⟨slot, member, rfl⟩
      exact ⟨slot.isLt, (List.mem_filter.mp member).2⟩
  exact congrArg IndexSet.toList same

/-- The letters are listed in the same order with the same values. -/
theorem pairs_eq : sets.pairs = env.pairs := by
  rw [LetterSets.pairs, encodes.toList_assigned, List.map_map, ← List.filterMap_eq_map,
    List.filterMap_filter, Assignment.pairs]
  refine List.filterMap_congr fun slot _ => ?_
  simp only [Function.comp_apply, encodes.mem_values_iff]
  change _ = (env.slots.get slot).map fun value => (Letter.ofSlot slot, value)
  cases env.slots.get slot with
  | none => rfl
  | some value => cases value <;> rfl

theorem size_eq : sets.size = env.size := by
  rw [Assignment.size, ← encodes.pairs_eq, LetterSets.pairs, List.length_map]
  rfl

end Encodes

theorem encodes_build (source : Source) (changes : List Change) :
    (build source changes).Encodes (Assignment.build source changes) := by
  cases source with
  | empty => exact Encodes.empty.foldl_change changes
  | index vars index => exact (Encodes.empty.foldl_set _).foldl_change changes

/-- Two sets each are equal if they list the same letters with the same values. -/
theorem beq_iff (encodes : sets.Encodes env) (also : others.Encodes other) :
    (sets == others) = true ↔ env = other := by
  change (sets.pairs == others.pairs) = true ↔ _
  rw [beq_iff_eq, encodes.pairs_eq, also.pairs_eq, Assignment.pairs_inj]

theorem change_of_not_isAlpha (noLetter : name.isAlpha = false) (sets : LetterSets) :
    sets.erase name = sets ∧ ∀ value, sets.set name value = sets := by
  have place := slot?_of_not_isAlpha noLetter
  constructor
  · rw [erase, place]
  · intro value
    rw [set, place]

/-- Two sets of places are a table of the letters, whether they start empty or as an index over letters
of which no two are the same in whatever case. After any changes, every letter has the value of the
last change that was made to it in either case, if it has one; a character that is not a letter never has
a value, and a change of it is none. The letters that have a value are listed once each, in alphabetical
order and with their values, and counted. Two such tables are equal if all characters have the same
values in both. An assignment with the same history has the same values, lists the same letters, and is
equal to another one when the sets are. What the variables of an index are worth spells the index,
without what is beyond them. -/
theorem history_exact {source : Source} (distinct : source.Distinct) (changes : List Change)
    (other : Source) (more : List Change) :
    let sets := build source changes
    let others := build other more
    let env := Assignment.build source changes
    (∀ name, sets.get? name = source.valueAfter changes name) ∧
    (∀ name, name.isAlpha = false → sets.get? name = none ∧
      (sets.erase name = sets ∧ ∀ value, sets.set name value = sets) ∧
      (env.erase name = env ∧ ∀ value, env.set name value = env)) ∧
    (sets.pairs.map Prod.fst).Pairwise (· < ·) ∧
    (∀ name value, (name, value) ∈ sets.pairs ↔ name.isUpper = true ∧ sets.get? name = some value) ∧
    sets.size = sets.pairs.length ∧
    ((sets == others) = true ↔ ∀ name, sets.get? name = others.get? name) ∧
    ((∀ name, env.get? name = sets.get? name) ∧ env.pairs = sets.pairs ∧ env.size = sets.size ∧
      (env = Assignment.build other more ↔ (sets == others) = true)) ∧
    ∀ vars index, (Source.index vars index).Distinct →
      ∃ bits, vars.names.map (ofIndex vars index).get? = bits.map some ∧
        Minterm.ofBits bits = index % 2 ^ vars.size := by
  intro sets others env
  have encodes : sets.Encodes env := encodes_build source changes
  have encodesOther : others.Encodes (Assignment.build other more) := encodes_build other more
  refine ⟨fun name => ?_, fun name noLetter => ⟨?_, change_of_not_isAlpha noLetter sets, ?_⟩, ?_,
    fun name value => ?_, ?_, ?_, ⟨fun name => (encodes.get?_eq name).symm, encodes.pairs_eq.symm,
      encodes.size_eq.symm, (beq_iff encodes encodesOther).symm⟩, ?_⟩
  · rw [encodes.get?_eq, Assignment.get?_build distinct]
  · rw [encodes.get?_eq, Assignment.get?_of_not_isAlpha noLetter]
  · exact ⟨Assignment.assign_of_not_isAlpha noLetter env none,
      fun value => Assignment.assign_of_not_isAlpha noLetter env (some value)⟩
  · rw [encodes.pairs_eq]
    exact env.sorted_pairs
  · rw [encodes.pairs_eq, encodes.get?_eq, Assignment.mem_pairs_iff]
  · rw [encodes.size_eq, encodes.pairs_eq, Assignment.size]
  · rw [beq_iff encodes encodesOther]
    simp only [encodes.get?_eq, encodesOther.get?_eq]
    exact ⟨fun same name => congrArg (·.get? name) same, Assignment.ext_get?⟩
  · rintro vars index ⟨letters, apart⟩
    have table : (ofIndex vars index).Encodes (Assignment.ofIndex vars index) :=
      encodes_build (.index vars index) []
    obtain ⟨bits, read, spelled⟩ := Assignment.exists_bits_ofIndex letters apart index
    exact ⟨bits, (List.map_congr_left fun name _ => table.get?_eq name).trans read, spelled⟩

/-- A letter that is set in one case and erased in the other. -/
theorem history_exact_recased :
    let source : Source := .index ⟨['A', 'b', 'C']⟩ 5
    let changes : List Change := [.set 'B' true, .set '%' true, .erase 'c', .set 'b' false]
    let sets := build source changes
    let others := build .empty [.set 'b' false, .set 'A' true]
    source.Distinct ∧ sets.get? 'b' = some false ∧ sets.get? 'C' = none ∧ sets.get? '%' = none ∧
    sets.pairs = [('A', true), ('B', false)] ∧ sets.size = sets.pairs.length ∧
    (∀ name, sets.get? name = others.get? name) ∧
    ∃ bits, ['A', 'b', 'C'].map (ofIndex ⟨['A', 'b', 'C']⟩ 13).get? = bits.map some ∧
      Minterm.ofBits bits = 5 := by
  intro source changes sets others
  have distinct : source.Distinct := ⟨by simp, by decide⟩
  obtain ⟨values, ignored, -, -, counted, equal, -, spelled⟩ :=
    history_exact distinct changes .empty [.set 'b' false, .set 'A' true]
  exact ⟨distinct, values 'b', values 'C', (ignored '%' rfl).1, by decide, counted,
    equal.mp (by decide), spelled ⟨['A', 'b', 'C']⟩ 13 distinct⟩

end LetterSets

end Switching
