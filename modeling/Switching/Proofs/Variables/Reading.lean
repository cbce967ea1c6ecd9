import Mathlib
import Switching.Proofs.Assignment
import Switching.Proofs.Outcome
import Switching.Proofs.Text.Splitting
import Switching.Variables

/-! # Reading lists of variables

Reading a list comes down to one condition on the whole text, wherever its separators stand: what is
left without them are letters, and no two of them are the same one, in whatever case
(`ofString_eq_ok_iff`). The lists that can be built hold distinct letters in upper case
(`Built.lettered`), so that each is read back from its text.
-/

namespace Switching.Variables

variable {vars next : Variables} {name : Char} {word : List Char} {words : List (List Char)}
  {text : String} {count : Nat}

/-! ## Appending letters -/

theorem push_eq_ok_iff : vars.push name = .ok next ↔
    name.isAlpha = true ∧ name.toUpper ∉ vars.names ∧ next = ⟨vars.names ++ [name.toUpper]⟩ := by
  rw [push]
  split
  · next noLetter => exact iff_of_false nofun fun parts => by simp [parts.1] at noLetter
  · next letter =>
    have isLetter : name.isAlpha = true := by simpa using letter
    split
    · next listed => exact iff_of_false nofun fun parts => parts.2.1 listed
    · next new =>
      rw [Except.ok.injEq]
      exact ⟨fun same => ⟨isLetter, new, same.symm⟩, fun parts => parts.2.2.symm⟩

/-- A word is appended if it consists of letters that are new, each of them once. -/
theorem foldlM_push_eq_ok_iff : word.foldlM push vars = .ok next ↔
    (∀ c ∈ word, c.isAlpha = true) ∧ (∀ c ∈ word.map Char.toUpper, c ∉ vars.names) ∧
      (word.map Char.toUpper).Nodup ∧ next = ⟨vars.names ++ word.map Char.toUpper⟩ := by
  induction word generalizing vars with
  | nil =>
    rw [List.foldlM_nil, List.map_nil, List.append_nil]
    constructor
    · intro same
      exact ⟨nofun, nofun, List.nodup_nil, (Except.ok.inj same).symm⟩
    · rintro ⟨_, _, _, rfl⟩
      rfl
  | cons c word ih =>
    have appended (d : Char) : d ∉ vars.names ++ [c.toUpper] ↔ d ∉ vars.names ∧ d ≠ c.toUpper := by
      rw [List.mem_append, List.mem_singleton, not_or]
    rw [List.foldlM_cons, bind_eq_ok_iff, List.map_cons, List.nodup_cons]
    simp only [push_eq_ok_iff, ih, List.forall_mem_cons]
    constructor
    · rintro ⟨_, ⟨letter, new, rfl⟩, letters, others, distinct, rfl⟩
      refine ⟨⟨letter, letters⟩, ⟨new, fun d member => ?_⟩, ⟨fun member => ?_, distinct⟩, ?_⟩
      · exact ((appended d).mp (others d member)).1
      · exact ((appended _).mp (others _ member)).2 rfl
      · rw [List.append_assoc, List.singleton_append]
    · rintro ⟨⟨letter, letters⟩, ⟨new, others⟩, ⟨once, distinct⟩, rfl⟩
      refine ⟨_, ⟨letter, new, rfl⟩, letters, fun d member => ?_, distinct, ?_⟩
      · exact (appended d).mpr ⟨others d member, ne_of_mem_of_not_mem member once⟩
      · rw [List.append_assoc, List.singleton_append]

/-- A word that is no name would not be appended letter by letter either. -/
theorem pushWord_eq_ok_iff : vars.pushWord word = .ok next ↔ word.foldlM push vars = .ok next := by
  rw [pushWord]
  split
  · exact Iff.rfl
  · next noName =>
    refine iff_of_false nofun fun appended => noName (List.all_eq_true.mpr ?_)
    exact (foldlM_push_eq_ok_iff.mp appended).1

/-- Where one word ends and the next begins does not matter. -/
theorem foldlM_pushWord_eq_ok_iff :
    words.foldlM pushWord vars = .ok next ↔ words.flatten.foldlM push vars = .ok next := by
  induction words generalizing vars with
  | nil => exact Iff.rfl
  | cons word words ih =>
    rw [List.foldlM_cons, List.flatten_cons, List.foldlM_append, bind_eq_ok_iff, bind_eq_ok_iff]
    exact exists_congr fun _ => and_congr pushWord_eq_ok_iff ih

theorem ofString_eq_ok_iff : ofString text = .ok vars ↔
    (∀ c ∈ text.toList.filter (!isSeparator ·), c.isAlpha = true) ∧
      ((text.toList.filter (!isSeparator ·)).map Char.toUpper).Nodup ∧
      vars.names = (text.toList.filter (!isSeparator ·)).map Char.toUpper := by
  obtain ⟨names⟩ := vars
  rw [ofString, foldlM_pushWord_eq_ok_iff, List.flatten_filter_not_isEmpty, Text.flatten_splitOnP,
    foldlM_push_eq_ok_iff]
  refine and_congr_right fun _ => ?_
  constructor
  · rintro ⟨_, distinct, same⟩
    exact ⟨distinct, congrArg Variables.names same⟩
  · rintro ⟨distinct, rfl⟩
    exact ⟨fun _ _ => List.not_mem_nil, distinct, rfl⟩

/-! ## Lists that can be built -/

theorem pushed_cases (vars : Variables) (name : Char) :
    vars.pushed name = vars ∨ vars.push name = .ok (vars.pushed name) := by
  rw [pushed]
  cases vars.push name with
  | ok next => exact .inr rfl
  | error fault => exact .inl rfl

theorem Lettered.of_push (lettered : vars.Lettered) (appended : vars.push name = .ok next) :
    next.Lettered := by
  obtain ⟨letter, new, rfl⟩ := push_eq_ok_iff.mp appended
  refine ⟨?_, fun other member => ?_⟩
  · rw [List.nodup_append]
    refine ⟨lettered.1, List.nodup_singleton _, fun a member b single => ?_⟩
    rw [List.mem_singleton.mp single]
    exact ne_of_mem_of_not_mem member new
  · rcases List.mem_append.mp member with old | last
    · exact lettered.2 other old
    · rw [List.mem_singleton.mp last]
      exact isUpper_toUpper letter

theorem Lettered.pushed (lettered : vars.Lettered) (name : Char) : (vars.pushed name).Lettered := by
  rcases pushed_cases vars name with same | appended
  · rwa [same]
  · exact lettered.of_push appended

theorem lettered_ofString (read : ofString text = .ok vars) : vars.Lettered := by
  obtain ⟨letters, distinct, same⟩ := ofString_eq_ok_iff.mp read
  rw [Lettered, same]
  refine ⟨distinct, fun name member => ?_⟩
  obtain ⟨c, kept, rfl⟩ := List.mem_map.mp member
  exact isUpper_toUpper (letters c kept)

theorem lettered_alphabetic (listed : alphabetic count = .ok vars) : vars.Lettered := by
  rw [alphabetic] at listed
  split at listed
  · cases listed
  · cases listed
    have whole : Lettered ⟨Letter.alphabet⟩ := by decide
    exact whole.sublist (List.take_sublist ..)

theorem Built.lettered (built : vars.Built) : vars.Lettered := by
  induction built with
  | ofString read => exact lettered_ofString read
  | alphabetic listed => exact lettered_alphabetic listed
  | pushed name _ ih => exact ih.pushed name

/-- There are no more letters than the alphabet has. -/
theorem Lettered.size_le (lettered : vars.Lettered) : vars.size ≤ Letter.alphabetSize := by
  have known : vars.names ⊆ Letter.alphabet := fun name member => by
    obtain ⟨slot, _, same⟩ := slot?_of_isUpper (lettered.2 name member)
    exact List.mem_map.mpr ⟨slot, List.mem_finRange slot, same⟩
  exact lettered.1.length_le_of_subset known

/-! ## Reading back -/

theorem isSeparator_of_isUpper (upper : name.isUpper = true) : isSeparator name = false := by
  have code := isUpper_iff.mp upper
  simp only [isSeparator, Bool.or_eq_false_iff, decide_eq_false_iff_not]
  refine ⟨⟨?_, ?_⟩, ?_⟩
  all_goals
    rintro rfl
    simp at code

/-- Without its separators, the text of a list is the list. -/
theorem filter_text (lettered : vars.Lettered) :
    vars.text.toList.filter (!isSeparator ·) = vars.names := by
  obtain ⟨names⟩ := vars
  have kept : ∀ name ∈ names, isSeparator name = false :=
    fun name member => isSeparator_of_isUpper (lettered.2 name member)
  clear lettered
  rw [text, String.toList_ofList]
  induction names with
  | nil => rfl
  | cons name names ih =>
    obtain ⟨first, rest⟩ := List.forall_mem_cons.mp kept
    cases names with
    | nil => simp [first]
    | cons other names =>
      have gap : [',', ' '].filter (!isSeparator ·) = [] := by decide
      rw [List.map_cons, List.map_cons, List.intercalate_cons_cons, List.filter_append,
        List.filter_append, gap, List.append_nil]
      simp only [List.map_cons] at ih
      rw [ih rest, List.filter_singleton, first]
      rfl

theorem ofString_text_of_lettered (lettered : vars.Lettered) : ofString vars.text = .ok vars := by
  rw [ofString_eq_ok_iff, filter_text lettered, lettered.map_toUpper]
  exact ⟨fun name member => isAlpha_of_isUpper (lettered.2 name member), lettered.1, rfl⟩

/-- A text is a list of variables if and only if all that is left of it without its separators are
letters, none of them twice in either case, and these in upper case are then the list. Every list that
is read, alphabetic or built from such a list by appending names is read back from its text, and has no
more variables than there are letters. -/
theorem ofString_exact :
    (∀ (text : String) (vars : Variables), ofString text = .ok vars ↔
      (∀ c ∈ text.toList.filter (!isSeparator ·), c.isAlpha = true) ∧
        ((text.toList.filter (!isSeparator ·)).map Char.toUpper).Nodup ∧
        vars.names = (text.toList.filter (!isSeparator ·)).map Char.toUpper) ∧
    ∀ vars : Variables, vars.Built → ofString vars.text = .ok vars ∧ vars.size ≤ 26 := by
  refine ⟨fun text vars => ofString_eq_ok_iff, fun vars built => ⟨?_, ?_⟩⟩
  · exact ofString_text_of_lettered built.lettered
  · exact built.lettered.size_le

/-- A list in both cases, to which a known letter and a new one are appended. -/
theorem ofString_exact_appended :
    let text := " x;Y ,z"
    let start : Variables := ⟨['X', 'Y', 'Z']⟩
    let vars : Variables := ⟨['X', 'Y', 'Z', 'Q']⟩
    ofString text = .ok start ∧ (start.pushed 'y').pushed 'q' = vars ∧ vars.Built ∧
      ofString vars.text = .ok vars ∧ vars.size ≤ 26 := by
  intro text start vars
  have kept : text.toList.filter (!isSeparator ·) = ['x', 'Y', 'z'] := by decide
  have read : ofString text = .ok start := by
    refine (ofString_exact.1 text start).mpr ?_
    rw [kept]
    exact ⟨by simp, by decide, by decide⟩
  have appended : (start.pushed 'y').pushed 'q' = vars := by decide
  have built : vars.Built := appended ▸ .pushed 'q' (.pushed 'y' (.ofString read))
  exact ⟨read, appended, built, ofString_exact.2 vars built⟩

end Switching.Variables
