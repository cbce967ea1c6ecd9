import Switching.Proofs.Expression.Faults
import Switching.Proofs.Expression.Uniformity
import Switching.Proofs.Minterm.Neighbour
import Switching.Proofs.Variables.Reading

/-! # The rows of a truth table and its variables

A row of a table gives each variable the value of its own bit if the variables are letters and no two of
them the same one, in whatever case. If two are, then the later one decides, and there are two rows with
one assignment. So the rows are told apart by their assignments in exactly these lists
(`ownBits_build_iff`, `nodup_env_build_iff`). All lists of the library are of this kind, apart from the
variables of an expression that was put together by hand (`Variables.lettered_exact`).
-/

namespace Switching

theorem exists_repeated {α β : Type} {f : α → β} {list : List α} (repeated : ¬(list.map f).Nodup) :
    ∃ before first after, list = before ++ first :: after ∧ f first ∈ after.map f := by
  induction list with
  | nil => exact absurd List.nodup_nil repeated
  | cons a list ih =>
    rw [List.map_cons, List.nodup_cons, not_and_or, not_not] at repeated
    rcases repeated with again | later
    · exact ⟨[], a, list, rfl, again⟩
    · obtain ⟨before, first, after, same, again⟩ := ih later
      exact ⟨a :: before, first, after, congrArg (a :: ·) same, again⟩

namespace Assignment

variable {env other : Assignment} {pairs : List (Char × Bool)} {name first : Char}
  {vars : Variables} {index : Nat}

/-! ## Values that are given twice -/

/-- Assignments that agree on a letter still do so when both are given the same values. -/
theorem get?_foldl_congr (same : env.get? name = other.get? name) :
    (pairs.foldl (fun env pair => env.set pair.1 pair.2) env).get? name =
      (pairs.foldl (fun env pair => env.set pair.1 pair.2) other).get? name := by
  induction pairs generalizing env other with
  | nil => exact same
  | cons pair pairs ih =>
    rw [List.foldl_cons, List.foldl_cons]
    refine ih ?_
    rw [set, set, get?_assign, get?_assign, same]

/-- What a letter had before does not matter once it is given a value. -/
theorem get?_foldl_of_given (given : ∃ pair ∈ pairs, (Letter.slot? pair.1).isSome = true ∧
    Letter.slot? pair.1 = Letter.slot? name) :
    (pairs.foldl (fun env pair => env.set pair.1 pair.2) env).get? name =
      (pairs.foldl (fun env pair => env.set pair.1 pair.2) other).get? name := by
  induction pairs generalizing env other with
  | nil => simp at given
  | cons pair pairs ih =>
    rw [List.foldl_cons, List.foldl_cons]
    rcases (List.exists_mem_cons_iff ..).mp given with here | later
    · refine get?_foldl_congr ?_
      rw [set, set, get?_assign, get?_assign, if_pos here, if_pos here]
    · exact ih later

/-- The value that a letter is given is lost when the same letter is given one later. -/
theorem foldl_set_of_later (later : ∃ pair ∈ pairs, Letter.slot? pair.1 = Letter.slot? first)
    (env : Assignment) (value another : Bool) :
    pairs.foldl (fun env pair => env.set pair.1 pair.2) (env.set first value) =
      pairs.foldl (fun env pair => env.set pair.1 pair.2) (env.set first another) := by
  refine ext_get? fun name => ?_
  by_cases given : (Letter.slot? first).isSome = true ∧ Letter.slot? first = Letter.slot? name
  · obtain ⟨pair, member, same⟩ := later
    exact get?_foldl_of_given ⟨pair, member, same ▸ given⟩
  · refine get?_foldl_congr ?_
    rw [set, set, get?_assign, get?_assign, if_neg given, if_neg given]

/-! ## Assignments of indices -/

theorem spells_of_distinct (letters : ∀ name ∈ vars.names, name.isAlpha = true)
    (distinct : (vars.names.map Char.toUpper).Nodup) (index : Nat) :
    (ofIndex vars index).Spells vars index :=
  fun _ _ => get?_ofIndex_of_distinct letters distinct index

theorem ofIndex_value {bits : List Bool} (length : bits.length = vars.size) :
    ofIndex vars (Minterm.value bits) = ofPairs (vars.names.zip bits) := by
  rw [ofIndex, ← length, Minterm.bits_value]

/-- Indices are told apart by assignments that spell them. -/
theorem eq_of_spells {second : Nat} (small : index < 2 ^ vars.size) (also : second < 2 ^ vars.size)
    (spells : env.Spells vars index) (again : env.Spells vars second) : index = second := by
  refine Minterm.eq_of_bitAt small also fun position inside => ?_
  have listed : vars.names[position]? = some vars.names[position] := List.getElem?_eq_getElem inside
  exact Option.some.inj ((spells position _ listed).symm.trans (again position _ listed))

/-- If a letter is listed twice, then its first bit does not matter. -/
theorem ofIndex_of_repeated {before after : List Char} {high low : List Bool}
    (names : vars.names = before ++ first :: after) (again : first.toUpper ∈ after.map Char.toUpper)
    (highs : before.length = high.length) (lows : after.length = low.length) (bit another : Bool) :
    ofIndex vars (Minterm.value (high ++ bit :: low)) =
      ofIndex vars (Minterm.value (high ++ another :: low)) := by
  have assigned (bit : Bool) : ofIndex vars (Minterm.value (high ++ bit :: low)) =
      (after.zip low).foldl (fun env pair => env.set pair.1 pair.2)
        ((ofPairs (before.zip high)).set first bit) := by
    have length : (high ++ bit :: low).length = vars.size := by
      simp [Variables.size, names, highs, lows]
    rw [ofIndex_value length, names, List.zip_append highs, List.zip_cons_cons, ofPairs,
      List.foldl_append]
    rfl
  have later : ∃ pair ∈ after.zip low, Letter.slot? pair.1 = Letter.slot? first := by
    obtain ⟨letter, listed, same⟩ := List.mem_map.mp again
    rw [← List.map_fst_zip (Nat.le_of_eq lows)] at listed
    obtain ⟨pair, member, rfl⟩ := List.mem_map.mp listed
    refine ⟨pair, member, ?_⟩
    rw [← slot?_toUpper, same, slot?_toUpper]
  rw [assigned, assigned]
  exact foldl_set_of_later later _ bit another

/-- If all indices have assignments of their own, then no letter is listed twice. -/
theorem distinct_of_injective
    (injective : ∀ index < 2 ^ vars.size, ∀ second < 2 ^ vars.size,
      ofIndex vars index = ofIndex vars second → index = second) :
    (vars.names.map Char.toUpper).Nodup := by
  by_contra repeated
  obtain ⟨before, first, after, names, again⟩ := exists_repeated repeated
  -- All bits but the first one of the letter are zero in both of these rows.
  let row (bit : Bool) := List.replicate before.length false ++
    bit :: List.replicate after.length false
  have length (bit : Bool) : (row bit).length = vars.size := by simp [row, Variables.size, names]
  have same : ofIndex vars (Minterm.value (row true)) = ofIndex vars (Minterm.value (row false)) :=
    ofIndex_of_repeated names again List.length_replicate.symm List.length_replicate.symm true false
  have small (bit : Bool) : Minterm.value (row bit) < 2 ^ vars.size :=
    length bit ▸ Minterm.value_lt (row bit)
  have rows := congrArg (Minterm.bits vars.size) (injective _ (small true) _ (small false) same)
  rw [← length true, Minterm.bits_value, length true, ← length false, Minterm.bits_value] at rows
  exact Bool.noConfusion (List.cons.inj (List.append_cancel_left rows)).1

theorem isAlpha_of_isSome_get? (known : (env.get? name).isSome = true) : name.isAlpha = true := by
  rw [get?, Option.isSome_bind] at known
  exact isSome_slot?_iff.mp (Option.isSome_of_any known)

/-- A listed letter has a value in the assignment of each index. -/
theorem isSome_get?_ofIndex (letter : name.isAlpha = true) (listed : name ∈ vars.names)
    (index : Nat) : ((ofIndex vars index).get? name).isSome = true := by
  refine knows_ofPairs_iff.mpr ⟨name, ?_, isSome_slot?_iff.mpr letter, rfl⟩
  rwa [List.map_fst_zip (Nat.le_of_eq (Minterm.length_bits vars.size index).symm)]

end Assignment

namespace TruthTable

open Assignment

variable {vars : Variables} {e : Expression} {expression : Option Expression} {table : TruthTable}
  {name : Char}

theorem map_env_rows (table : TruthTable) :
    table.rows.map (·.env) = (List.range table.size).map (ofIndex table.vars) := by
  refine List.ext_getElem (by simp [rows, size]) fun index _ _ => ?_
  simp [rows, row]

theorem ownBits_iff : table.OwnBits ↔
    ∀ index < table.size, (ofIndex table.vars index).Spells table.vars index := by
  simp only [OwnBits, rows, List.mem_mapIdx]
  constructor
  · intro own index inside
    exact own _ ⟨index, inside, rfl⟩
  · rintro own _ ⟨index, inside, rfl⟩
    exact own index inside

theorem nodup_env_iff : (table.rows.map (·.env)).Nodup ↔
    ∀ index < table.size, ∀ second < table.size,
      ofIndex table.vars index = ofIndex table.vars second → index = second := by
  rw [map_env_rows, List.nodup_map_iff_inj_on List.nodup_range]
  simp only [List.mem_range]

section Letters

variable (built : build vars expression = .ok table) (letters : ∀ name ∈ vars.names, name.isAlpha = true)

include built letters

theorem ownBits_of_distinct (distinct : (vars.names.map Char.toUpper).Nodup) : table.OwnBits := by
  obtain rfl := (build_eq_ok_iff.mp built).2.1
  exact ownBits_iff.mpr fun index _ => spells_of_distinct letters distinct index

theorem nodup_env_build_iff :
    (table.rows.map (·.env)).Nodup ↔ (vars.names.map Char.toUpper).Nodup := by
  have lengths : table.size = 2 ^ vars.size := length_outputs built
  obtain rfl := (build_eq_ok_iff.mp built).2.1
  rw [nodup_env_iff, lengths]
  refine ⟨distinct_of_injective, fun distinct index small second also same => ?_⟩
  have spells := spells_of_distinct letters distinct
  exact eq_of_spells small also (spells index) (same ▸ spells second)

theorem ownBits_build_iff : table.OwnBits ↔ (vars.names.map Char.toUpper).Nodup := by
  refine ⟨fun own => ?_, ownBits_of_distinct built letters⟩
  have lengths : table.size = 2 ^ vars.size := length_outputs built
  rw [← nodup_env_build_iff built letters, nodup_env_iff]
  obtain rfl := (build_eq_ok_iff.mp built).2.1
  intro index small second also same
  have spells := ownBits_iff.mp own
  rw [lengths] at small also spells
  exact eq_of_spells small also (spells index small) (same ▸ spells second also)

end Letters

/-- The variables of an expression with a table are letters. -/
theorem isAlpha_of_build (built : build e.vars (some e) = .ok table) (listed : name ∈ e.vars.names) :
    name.isAlpha = true := by
  obtain ⟨value, _, valued⟩ := outputs_build built (Nat.two_pow_pos e.vars.size)
  exact isAlpha_of_isSome_get? (Expression.isSome_get?_of_eval valued listed)

/-- A variable that has no value in a table of its own expression is no letter. -/
theorem not_isAlpha_of_build (failure : build e.vars (some e) = .error (.undefinedVariable name)) :
    .var name ∈ e.tokens ∧ name.isAlpha = false := by
  by_cases small : e.vars.size ≤ maxVariables
  · have first := (build_eq_error_iff small).mp failure
    rw [Expression.eval] at first
    rcases bind_eq_error_iff.mp first with stopped | ⟨stack, _, unsettled⟩
    · obtain ⟨token, member, reached, fails⟩ := Expression.exists_step_of_run stopped
      rcases Expression.step_error_cases fails with missing | ⟨other, rfl, unknown, same⟩ | ⟨_, other⟩
      · cases missing
      · cases same
        refine ⟨member, Bool.eq_false_iff.mpr fun letter => ?_⟩
        have known := isSome_get?_ofIndex letter (Expression.mem_vars.mpr member) 0
        rw [unknown] at known
        cases known
      · cases other
    · unfold Expression.result at unsettled
      split at unsettled
      · cases unsettled
      · cases unsettled
  · rw [build, if_pos (Nat.lt_of_not_le small)] at failure
    cases failure

end TruthTable

namespace Variables

open TruthTable

theorem lettered_foldl_pushed {vars : Variables} (lettered : vars.Lettered) (names : List Char) :
    (names.foldl pushed vars).Lettered := by
  induction names generalizing vars with
  | nil => exact lettered
  | cons name names ih => exact ih (lettered.pushed name)

theorem lettered_vars_iff {e : Expression} :
    e.vars.Lettered ↔ ∀ name, .var name ∈ e.tokens → name.isUpper = true := by
  constructor
  · exact fun lettered name member => lettered.2 name (Expression.mem_vars.mpr member)
  · intro upper
    refine ⟨(Expression.sorted_vars e).imp ne_of_lt, fun name member => ?_⟩
    exact upper name (Expression.mem_vars.mp member)

/-- Lists that are read, alphabetic or built from such lists by appending names hold distinct letters in
upper case, and so do the variables of an expression that was read, whatever is appended to them. For an
expression that was put together by hand this is the case if and only if its own tokens hold such
letters. Its table then gives each variable its own bit in each row, has no two rows with one assignment
and fails for no variable without a value: the rows are in order if and only if no two variables are the
same letter in either case, and a variable without a value is no letter. -/
theorem lettered_exact (e : Expression) :
    (∀ vars : Variables, vars.Built → vars.Lettered) ∧
    (∀ text : String, Expression.parse text = .ok e →
      ∀ names : List Char, (names.foldl pushed e.vars).Lettered) ∧
    ((∀ names : List Char, (names.foldl pushed e.vars).Lettered) ↔
      ∀ name, .var name ∈ e.tokens → name.isUpper = true) ∧
    (e.vars.Lettered →
      (∀ table, build e.vars (some e) = .ok table →
        table.OwnBits ∧ (table.rows.map (·.env)).Nodup) ∧
      ∀ name, build e.vars (some e) ≠ .error (.undefinedVariable name)) ∧
    (∀ table, build e.vars (some e) = .ok table →
      (table.OwnBits ↔ (e.vars.names.map Char.toUpper).Nodup) ∧
      ((table.rows.map (·.env)).Nodup ↔ (e.vars.names.map Char.toUpper).Nodup)) ∧
    ∀ name, build e.vars (some e) = .error (.undefinedVariable name) →
      .var name ∈ e.tokens ∧ name.isAlpha = false := by
  have tables {table : TruthTable} (built : build e.vars (some e) = .ok table) :
      (table.OwnBits ↔ (e.vars.names.map Char.toUpper).Nodup) ∧
        ((table.rows.map (·.env)).Nodup ↔ (e.vars.names.map Char.toUpper).Nodup) := by
    have letters : ∀ name ∈ e.vars.names, name.isAlpha = true := fun _ => isAlpha_of_build built
    exact ⟨ownBits_build_iff built letters, nodup_env_build_iff built letters⟩
  refine ⟨fun vars => Built.lettered, fun text read names => ?_, ?_, fun lettered => ⟨?_, ?_⟩,
    fun table => tables, fun name => not_isAlpha_of_build⟩
  · exact lettered_foldl_pushed (Expression.lettered_vars read) names
  · rw [← lettered_vars_iff]
    exact ⟨fun appended => appended [], lettered_foldl_pushed⟩
  · intro table built
    have distinct : (e.vars.names.map Char.toUpper).Nodup := by
      rw [lettered.map_toUpper]
      exact lettered.1
    exact ⟨(tables built).1.mpr distinct, (tables built).2.mpr distinct⟩
  · intro name failure
    obtain ⟨member, noLetter⟩ := not_isAlpha_of_build failure
    have letter := isAlpha_of_isUpper (lettered.2 name (Expression.mem_vars.mpr member))
    exact Bool.noConfusion (letter.symm.trans noLetter)

/-- Lists and expressions that were read, and an expression of a character that is no letter. -/
theorem lettered_exact_read :
    let vars : Variables := ⟨['B', 'A', 'C']⟩
    let e : Expression := ⟨[.var 'A', .var 'B', .operator (.binary .xor)]⟩
    let table : TruthTable := ⟨⟨['A', 'B']⟩, [false, true, true, false]⟩
    let accented : Expression := ⟨[.var 'é']⟩
    (vars.Built ∧ vars.Lettered) ∧
    (Expression.parse "a ^ B" = .ok e ∧ ∀ names : List Char, (names.foldl pushed e.vars).Lettered) ∧
    ((∀ name, .var name ∈ e.tokens → name.isUpper = true) ∧ e.vars.Lettered) ∧
    (build e.vars (some e) = .ok table ∧ table.OwnBits ∧ (table.rows.map (·.env)).Nodup ∧
      (∀ name, build e.vars (some e) ≠ .error (.undefinedVariable name)) ∧
      (table.OwnBits ↔ (e.vars.names.map Char.toUpper).Nodup) ∧
      ((table.rows.map (·.env)).Nodup ↔ (e.vars.names.map Char.toUpper).Nodup)) ∧
    build accented.vars (some accented) = .error (.undefinedVariable 'é') ∧
      .var 'é' ∈ accented.tokens ∧ 'é'.isAlpha = false := by
  intro vars e table accented
  have start : ofString "b, a" = .ok ⟨['B', 'A']⟩ := by decide +kernel
  have built : vars.Built := .pushed 'c' (.ofString start)
  have read : Expression.parse "a ^ B" = .ok e := by decide +kernel
  have tabled : build e.vars (some e) = .ok table := by decide +kernel
  have failure : build accented.vars (some accented) = .error (.undefinedVariable 'é') := by
    decide +kernel
  obtain ⟨lists, expressions, upper, ordered, tables, _⟩ := lettered_exact e
  obtain ⟨_, _, _, _, _, unknown⟩ := lettered_exact accented
  have appended := expressions _ read
  obtain ⟨inOrder, valued⟩ := ordered (appended [])
  exact ⟨⟨built, lists vars built⟩, ⟨read, appended⟩, ⟨upper.mp appended, appended []⟩,
    ⟨tabled, (inOrder table tabled).1, (inOrder table tabled).2, valued, tables table tabled⟩, failure,
    unknown 'é' failure⟩

/-- One letter in both cases is listed as two variables. The row of the index 2 is then that of the index
0 again, as the first of the two loses its bit. A character that is no letter is listed as a variable that
no row gives a value. -/
theorem not_lettered_both_cases :
    let e : Expression := ⟨[.var 'A', .var 'a', .operator (.binary .and)]⟩
    let table : TruthTable := ⟨⟨['A', 'a']⟩, [false, true, false, true]⟩
    let accented : Expression := ⟨[.var 'é']⟩
    ¬e.vars.Lettered ∧ build e.vars (some e) = .ok table ∧ ¬table.OwnBits ∧
      ¬(table.rows.map (·.env)).Nodup ∧ ¬accented.vars.Lettered ∧
      build accented.vars (some accented) = .error (.undefinedVariable 'é') := by
  intro e table accented
  have tabled : build e.vars (some e) = .ok table := by decide +kernel
  refine ⟨by decide +kernel, tabled, fun own => ?_, by decide +kernel, by decide +kernel,
    by decide +kernel⟩
  have lost : (table.row 2 false).env.get? 'A' = some (Minterm.bitAt 2 2 0) :=
    own (table.row 2 false) (by decide +kernel) 0 'A' rfl
  exact absurd lost (by decide +kernel)

end Variables

end Switching
