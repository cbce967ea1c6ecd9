import Mathlib
import Switching.Text.Parsing

/-! # What parsing expressions read

Each parsing expression succeeds just on the texts with a beginning of its own. A repetition is
described by its steps (`further_of_some`, `further_of_none`), and one that begins after gaps reads
what it would have read before them (`repeated_dropWhile`).
-/

namespace Switching.Text

/-- A text that does not begin with a character of a kind. -/
def Stops (kind : Char → Bool) (text : List Char) : Prop :=
  ∀ c ∈ text.head?, kind c = false

variable {kind : Char → Bool} {c : Char} {text first rest : List Char}

theorem stops_nil : Stops kind [] := nofun

@[simp] theorem stops_cons : Stops kind (c :: rest) ↔ kind c = false := by
  simp [Stops]

theorem stops_append (nonempty : first ≠ []) : Stops kind (first ++ rest) ↔ Stops kind first := by
  rw [Stops, Stops, List.head?_append_of_ne_nil _ nonempty]

theorem stops_dropWhile (kind : Char → Bool) (text : List Char) : Stops kind (text.dropWhile kind) := by
  induction text with
  | nil => exact stops_nil
  | cons c text ih =>
    cases kept : kind c with
    | true => rwa [List.dropWhile_cons_of_pos kept]
    | false =>
      rw [List.dropWhile_cons_of_neg (Bool.eq_false_iff.mp kept)]
      exact stops_cons.mpr kept

theorem Stops.dropWhile_eq (stops : Stops kind text) : text.dropWhile kind = text := by
  cases text with
  | nil => rfl
  | cons c text => exact List.dropWhile_cons_of_neg (Bool.eq_false_iff.mp (stops_cons.mp stops))

theorem Stops.takeWhile_eq (stops : Stops kind text) : text.takeWhile kind = [] := by
  cases text with
  | nil => rfl
  | cons c text => exact List.takeWhile_cons_of_neg (Bool.eq_false_iff.mp (stops_cons.mp stops))

theorem dropWhile_append (all : ∀ c ∈ first, kind c = true) (stops : Stops kind rest) :
    (first ++ rest).dropWhile kind = rest := by
  rw [List.dropWhile_append_of_pos all, stops.dropWhile_eq]

theorem takeWhile_append (all : ∀ c ∈ first, kind c = true) (stops : Stops kind rest) :
    (first ++ rest).takeWhile kind = first := by
  rw [List.takeWhile_append_of_pos all, stops.takeWhile_eq, List.append_nil]

/-- A text is what is skipped at its beginning, then the rest. -/
theorem exists_skipped (kind : Char → Bool) (text : List Char) :
    ∃ skipped, (∀ c ∈ skipped, kind c = true) ∧ text = skipped ++ text.dropWhile kind :=
  ⟨_, fun _ member => List.mem_takeWhile_imp member, List.takeWhile_append_dropWhile.symm⟩

namespace Parsing

variable {α β : Type} {part : Parsing α} {next : Parsing β} {gap : Char → Bool} {a : α} {b : β}

theorem char_eq_some_iff : char kind text = some (c, rest) ↔ kind c = true ∧ text = c :: rest := by
  cases text with
  | nil => simp [char]
  | cons d text =>
    simp only [char, Option.ite_none_right_eq_some, Option.some.injEq, Prod.mk.injEq, List.cons.injEq]
    exact and_congr_left_iff.mpr fun same => by rw [same.1]

theorem char_eq_none_iff : char kind text = none ↔ Stops kind text := by
  cases text with
  | nil => exact iff_of_true rfl stops_nil
  | cons d text => simp [char]

theorem word_eq_some_iff : word kind text = some (first, rest) ↔
    first ≠ [] ∧ (∀ c ∈ first, kind c = true) ∧ Stops kind rest ∧ text = first ++ rest := by
  rw [word, Option.ite_none_left_eq_some, List.isEmpty_iff, Option.some.injEq, Prod.mk.injEq]
  constructor
  · rintro ⟨nonempty, rfl, rfl⟩
    exact ⟨nonempty, fun _ member => List.mem_takeWhile_imp member, stops_dropWhile kind text,
      List.takeWhile_append_dropWhile.symm⟩
  · rintro ⟨nonempty, all, stops, rfl⟩
    rw [takeWhile_append all stops, dropWhile_append all stops]
    exact ⟨nonempty, rfl, rfl⟩

theorem word_eq_none_iff : word kind text = none ↔ Stops kind text := by
  rw [word]
  constructor
  · intro failed
    by_contra goes
    split at failed
    · next empty =>
      rw [List.isEmpty_iff, List.takeWhile_eq_nil_iff] at empty
      cases text with
      | nil => exact goes stops_nil
      | cons c text => exact goes (stops_cons.mpr (Bool.eq_false_iff.mpr (empty (Nat.succ_pos _))))
    · cases failed
  · intro stops
    rw [stops.takeWhile_eq]
    rfl

theorem ending_eq_some_iff {u : Unit} : ending text = some (u, rest) ↔ text = [] ∧ rest = [] := by
  cases text with
  | nil => simp [ending, eq_comm]
  | cons c text => simp [ending]

theorem ending_eq_none_iff : ending text = none ↔ text ≠ [] := by
  cases text with
  | nil => exact iff_of_false nofun fun goes => goes rfl
  | cons c text => exact iff_of_true rfl (List.cons_ne_nil c text)

theorem map_eq_some_iff {f : α → β} :
    part.map f text = some (b, rest) ↔ ∃ a, part text = some (a, rest) ∧ f a = b := by
  simp [map]

theorem map_eq_none_iff {f : α → β} : part.map f text = none ↔ part text = none := by
  simp [map]

theorem followedBy_eq_some_iff : part.followedBy gap next text = some ((a, b), rest) ↔
    ∃ middle, part text = some (a, middle) ∧ next (middle.dropWhile gap) = some (b, rest) := by
  simp only [followedBy, Option.bind_eq_bind, Option.bind_eq_some_iff, Option.pure_def,
    Option.some.injEq, Prod.mk.injEq, Prod.exists]
  constructor
  · rintro ⟨_, middle, read, _, _, followed, ⟨rfl, rfl⟩, rfl⟩
    exact ⟨middle, read, followed⟩
  · rintro ⟨middle, read, followed⟩
    exact ⟨a, middle, read, b, rest, followed, ⟨rfl, rfl⟩, rfl⟩

theorem optional_of_some (read : part text = some (a, rest)) :
    part.optional text = some (some a, rest) := by
  simp [optional, read]

theorem optional_of_none (failed : part text = none) : part.optional text = some (none, text) := by
  simp [optional, failed]

theorem exists_optional (part : Parsing α) (text : List Char) :
    ∃ a rest, part.optional text = some (a, rest) := by
  cases read : part text with
  | none => exact ⟨none, text, optional_of_none read⟩
  | some found => exact ⟨some found.1, found.2, optional_of_some read⟩

/-! ## Repetitions -/

/-- A part that never reads nothing. -/
def Consumes (part : Parsing α) : Prop :=
  ∀ text a rest, part text = some (a, rest) → rest.length < text.length

theorem further_of_none (failed : part (text.dropWhile gap) = none) :
    further gap part text = ([], text) := by
  rw [further, failed]

theorem further_of_some (consumes : part.Consumes)
    (read : part (text.dropWhile gap) = some (a, rest)) :
    further gap part text = (a :: (further gap part rest).1, (further gap part rest).2) := by
  have shorter : rest.length < text.length :=
    (consumes _ _ _ read).trans_le (List.length_dropWhile_le gap text)
  rw [further, read]
  simp [shorter]

/-- A repetition that begins after gaps reads the further occurrences of its part; if there are none,
the gaps are read too. -/
theorem repeated_dropWhile (gap : Char → Bool) (consumes : part.Consumes) (text : List Char) :
    ∃ skipped rest, (∀ c ∈ skipped, gap c = true) ∧ (further gap part text).2 = skipped ++ rest ∧
      part.repeated gap (text.dropWhile gap) = some ((further gap part text).1, rest) := by
  cases read : part (text.dropWhile gap) with
  | none =>
    obtain ⟨skipped, gaps, same⟩ := exists_skipped gap text
    rw [further_of_none read]
    refine ⟨skipped, text.dropWhile gap, gaps, same, ?_⟩
    rw [repeated, read]
  | some found =>
    obtain ⟨a, rest⟩ := found
    rw [further_of_some consumes read]
    refine ⟨[], _, nofun, rfl, ?_⟩
    rw [repeated, read]

end Parsing

end Switching.Text
