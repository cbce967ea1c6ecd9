import Switching.Assignment
import Switching.Proofs.Letter
import Switching.Proofs.Minterm.Bits

/-! # The assignment that an index spells

Distinct letters have different slots, so that giving a value to one leaves the others alone: in the
assignment of an index, each variable has the value of its own bit (`get?_ofIndex_of_distinct`,
`get?_ofIndex`) and no other letter has a value. So an index is told by the values of the variables
(`map_get?_ofIndex`, `get?_ofIndex_value`).
-/

namespace Switching

namespace Variables.Lettered

variable {vars : Variables} (lettered : vars.Lettered)

include lettered

theorem map_toUpper : vars.names.map Char.toUpper = vars.names :=
  (List.map_congr_left fun name member => toUpper_of_isUpper (lettered.2 name member)).trans
    (List.map_id _)

theorem sublist {old : Variables} (order : old.names.Sublist vars.names) : old.Lettered :=
  ⟨lettered.1.sublist order, fun name member => lettered.2 name (order.subset member)⟩

end Variables.Lettered

namespace Assignment

variable {env : Assignment} {pairs : List (Char × Bool)} {name : Char} {value : Bool}

/-- What is given to other letters does not matter. -/
theorem get?_foldl_of_ne (others : ∀ pair ∈ pairs, Letter.slot? pair.1 ≠ Letter.slot? name) :
    (pairs.foldl (fun env pair => env.set pair.1 pair.2) env).get? name = env.get? name := by
  induction pairs generalizing env with
  | nil => rfl
  | cons pair pairs ih =>
    rw [List.foldl_cons, ih fun other member => others other (List.mem_cons_of_mem _ member), set,
      get?_assign, if_neg fun both => others pair (List.mem_cons_self ..) both.2]

/-- If a letter is given one value throughout, it has this value however often it is given. -/
theorem get?_foldl_of_alike (isLetter : (Letter.slot? name).isSome = true)
    (alike : ∀ pair ∈ pairs, Letter.slot? pair.1 = Letter.slot? name → pair.2 = value) :
    (pairs.foldl (fun env pair => env.set pair.1 pair.2) env).get? name =
      if ∃ pair ∈ pairs, Letter.slot? pair.1 = Letter.slot? name then some value
      else env.get? name := by
  induction pairs generalizing env with
  | nil => simp
  | cons pair pairs ih =>
    rw [List.foldl_cons, ih fun other member => alike other (List.mem_cons_of_mem _ member), set,
      get?_assign]
    by_cases here : Letter.slot? pair.1 = Letter.slot? name
    · have given := alike pair List.mem_cons_self here
      simp [here, isLetter, given]
    · simp [here]

/-- A letter that is given a value once has this value. -/
theorem get?_foldl_of_single (isLetter : (Letter.slot? name).isSome = true) {pair : Char × Bool}
    (alone : pairs.filter (fun other => Letter.slot? other.1 = Letter.slot? name) = [pair]) :
    (pairs.foldl (fun env pair => env.set pair.1 pair.2) env).get? name = some pair.2 := by
  have single (other : Char × Bool) :
      other ∈ pairs ∧ Letter.slot? other.1 = Letter.slot? name ↔ other = pair := by
    have found : other ∈ [pair] ↔ other = pair := List.mem_singleton
    rwa [← alone, List.mem_filter, decide_eq_true_iff] at found
  rw [get?_foldl_of_alike isLetter fun other member same =>
    congrArg Prod.snd ((single other).mp ⟨member, same⟩)]
  exact if_pos ⟨pair, (single pair).mpr rfl⟩

/-- A variable has the value of its bit if no other one is the same letter. -/
theorem get?_ofIndex_of_alone {vars : Variables} (index : Nat) {position : Nat}
    (isLetter : (Letter.slot? name).isSome = true)
    (alone : vars.names.filter (fun other => Letter.slot? other = Letter.slot? name) = [name])
    (listed : vars.names[position]? = some name) :
    (ofIndex vars index).get? name = some (Minterm.bitAt index vars.size position) := by
  let bits := Minterm.bits vars.size index
  let given : Char × Bool := (name, Minterm.bitAt index vars.size position)
  have sizes : vars.names.length = bits.length := by rw [Minterm.length_bits, Variables.size]
  obtain ⟨inside, _⟩ := List.getElem?_eq_some_iff.mp listed
  have bit : bits[position]? = some (Minterm.bitAt index vars.size position) := by
    rw [List.getElem?_eq_getElem (sizes ▸ inside), Minterm.getElem_bits]
  have member : given ∈ vars.names.zip bits :=
    List.mem_of_getElem? (List.getElem?_zip_eq_some.mpr ⟨listed, bit⟩)
  have firsts : ((vars.names.zip bits).filter
      fun other => Letter.slot? other.1 = Letter.slot? name).map Prod.fst = [name] := by
    have whole := List.map_fst_zip (Nat.le_of_eq sizes)
    rw [← whole, List.filter_map] at alone
    exact alone
  obtain ⟨pair, single, _⟩ := List.map_eq_singleton_iff.mp firsts
  obtain rfl : given = pair := by
    rw [← List.mem_singleton, ← single, List.mem_filter]
    exact ⟨member, decide_eq_true rfl⟩
  exact get?_foldl_of_single isLetter single

theorem filter_beq_eq_singleton {names : List Char} (distinct : names.Nodup) (member : name ∈ names) :
    names.filter (· == name) = [name] := by
  rw [List.filter_beq, List.count_eq_one_of_mem distinct member]
  rfl

/-- Every variable has the value of its bit if no two of them are the same letter. -/
theorem get?_ofIndex_of_distinct {vars : Variables} (letters : ∀ name ∈ vars.names, name.isAlpha = true)
    (distinct : (vars.names.map Char.toUpper).Nodup) (index : Nat) {position : Nat}
    (listed : vars.names[position]? = some name) :
    (ofIndex vars index).get? name = some (Minterm.bitAt index vars.size position) := by
  have member := List.mem_of_getElem? listed
  have isLetter := isSome_slot?_iff.mpr (letters name member)
  refine get?_ofIndex_of_alone index isLetter ?_ listed
  rw [← filter_beq_eq_singleton (.of_map _ distinct) member]
  refine List.filter_congr fun other found => ?_
  rw [Bool.eq_iff_iff, decide_eq_true_iff, beq_iff_eq,
    slot?_eq_iff (letters other found) (letters name member)]
  exact ⟨fun same => List.inj_on_of_nodup_map distinct found member same, fun same => same ▸ rfl⟩

/-- Every variable has the value of its bit. -/
theorem get?_ofIndex {vars : Variables} (lettered : vars.Lettered) (index : Nat) {position : Nat}
    (listed : vars.names[position]? = some name) :
    (ofIndex vars index).get? name = some (Minterm.bitAt index vars.size position) := by
  refine get?_ofIndex_of_distinct (fun other member => ?_) ?_ index listed
  · exact isAlpha_of_isUpper (lettered.2 other member)
  · rw [lettered.map_toUpper]
    exact lettered.1

section Lettered

variable {vars : Variables} (lettered : vars.Lettered)

include lettered

/-- In the index that the values of the variables spell, each variable has its value. -/
theorem get?_ofIndex_value (value : Char → Bool) (listed : name ∈ vars.names) :
    (ofIndex vars (Minterm.value (vars.names.map value))).get? name = some (value name) := by
  obtain ⟨position, here⟩ := List.getElem?_of_mem listed
  have bit : (vars.names.map value)[position]? = some (value name) := by
    rw [List.getElem?_map, here, Option.map_some]
  have place := Minterm.bitAt_value bit
  rw [List.length_map] at place
  rw [get?_ofIndex lettered _ here, Variables.size, place]

end Lettered

/-- A letter that is not among the variables in either case has no value. -/
theorem get?_ofIndex_of_not_mem_map {vars : Variables} (index : Nat) (upper : name.isUpper = true)
    (absent : name ∉ vars.names.map Char.toUpper) : (ofIndex vars index).get? name = none := by
  refine (get?_foldl_of_ne fun pair member same => absent ?_).trans (get?_empty name)
  exact List.mem_map.mpr ⟨_, (List.of_mem_zip member).1, (slot?_eq_iff_of_isUpper upper).mp same⟩

theorem get?_ofIndex_of_not_mem {vars : Variables} (lettered : vars.Lettered) (index : Nat)
    (upper : name.isUpper = true) (absent : name ∉ vars.names) : (ofIndex vars index).get? name = none :=
  get?_ofIndex_of_not_mem_map index upper (lettered.map_toUpper.symm ▸ absent)

/-! ## Variables that are taken to be false -/

theorem get?_set {other : Char} (upper : name.isUpper = true) (isUpper : other.isUpper = true) :
    (env.set other value).get? name = if name = other then some value else env.get? name := by
  rw [set, get?_assign]
  by_cases same : name = other
  · obtain ⟨slot, place, _⟩ := slot?_of_isUpper isUpper
    rw [if_pos same, same, if_pos ⟨Option.isSome_of_eq_some place, rfl⟩]
  · rw [if_neg same, if_neg fun both => same (slot?_inj isUpper upper both.2).symm]

theorem get?_withFalse {names : List Char} (upper : name.isUpper = true)
    (uppers : ∀ other ∈ names, other.isUpper = true) :
    (env.withFalse names).get? name = if name ∈ names then some false else env.get? name := by
  induction names generalizing env with
  | nil => rfl
  | cons other names ih =>
    have rest : ((env.set other false).withFalse names).get? name = _ :=
      ih fun letter member => uppers letter (List.mem_cons_of_mem _ member)
    rw [withFalse, List.foldl_cons]
    refine rest.trans ?_
    rw [get?_set upper (uppers other List.mem_cons_self)]
    by_cases same : name = other
    · simp [same]
    · simp [same]

/-- Missing letters that are taken to be false get the value that they have by default. -/
theorem get?_withFalse_missing {vars : Variables} (lettered : vars.Lettered) {names : List Char}
    (uppers : ∀ name ∈ names, name.isUpper = true) {index : Nat} (member : name ∈ names) :
    ((ofIndex vars index).withFalse (names.filter (· ∉ vars.names))).get? name =
      some (((ofIndex vars index).get? name).getD false) := by
  have upper := uppers name member
  rw [get?_withFalse upper fun other listed => uppers other (List.mem_filter.mp listed).1]
  by_cases known : name ∈ vars.names
  · obtain ⟨position, here⟩ := List.getElem?_of_mem known
    have given : name ∉ names.filter (· ∉ vars.names) := by simp [known]
    rw [if_neg given, get?_ofIndex lettered index here, Option.getD_some]
  · have missing : name ∈ names.filter (· ∉ vars.names) := by simp [known, member]
    rw [if_pos missing, get?_ofIndex_of_not_mem lettered index upper known, Option.getD_none]

end Assignment

end Switching
