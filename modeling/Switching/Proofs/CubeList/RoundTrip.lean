import Switching.Proofs.Cube.Reading
import Switching.Proofs.Minimized
import Switching.Proofs.Outcome
import Switching.Proofs.PrimeSearch.Order
import Switching.Proofs.Text.Splitting

/-! # Reading back the text of a list of cubes

The text of a list has a line of symbols for each cube. A line is not blank, no symbol in it separates
cubes or is skipped, and the origins that are found for it are all indices that it covers. So a list is
read back if its cubes are neither empty nor too wide and have these origins (`ofString_text_of_plain`),
which holds of the lists that were read themselves and of all prime cubes (`reads_back`).
-/

namespace Switching

/-- A text has nothing but blanks if there is nothing left when they are removed from its ends. -/
theorem Text.trim_eq_nil_iff {text : List Char} :
    trim text = [] ↔ ∀ c ∈ text, isBlank c = true := by
  rw [trim, List.reverse_eq_nil_iff, List.dropWhile_eq_nil_iff]
  simp only [List.mem_reverse]
  constructor
  · intro blank c member
    rw [← List.takeWhile_append_dropWhile (p := isBlank) (l := text)] at member
    rcases List.mem_append.mp member with before | after
    · exact List.mem_takeWhile_imp before
    · exact blank c after
  · intro blank c member
    exact blank c ((List.dropWhile_suffix isBlank).subset member)

/-- No symbol is a blank, a gap or a separator. -/
theorem Pattern.plain_symbol (x : Option Bool) : Text.isBlank (symbol x) = false ∧
    Cube.isGap (symbol x) = false ∧ CubeList.isSeparator (symbol x) = false := by
  match x with
  | none => decide
  | some false => decide
  | some true => decide

variable {c : Cube}

namespace Cube

/-- The cube has a position, but not more than can be written, and is put together from all minterms that
it covers. -/
structure Plain (c : Cube) : Prop where
  positive : 1 ≤ c.width
  narrow : c.width ≤ maxWidth
  origins_eq : c.origins = c.pattern.covered

theorem Plain.eq_ofPattern (plain : c.Plain) : c = ofPattern c.pattern := by
  obtain ⟨p, origins⟩ := c
  exact congrArg (Cube.mk p) plain.origins_eq

/-- The line of a cube is not blank. -/
theorem Plain.written (plain : c.Plain) : (Text.trim c.pattern.symbols).isEmpty = false := by
  obtain ⟨x, first⟩ := List.exists_mem_of_length_pos plain.positive
  refine Bool.eq_false_iff.mpr fun empty => ?_
  have blank := Text.trim_eq_nil_iff.mp (List.isEmpty_iff.mp empty) _ (List.mem_map_of_mem first)
  exact Bool.noConfusion (blank.symm.trans (Pattern.plain_symbol x).1)

theorem ofString_symbols (plain : c.Plain) :
    ofString (String.ofList c.pattern.symbols) = .ok c := by
  have kept : c.pattern.symbols.filter (!isGap ·) = c.pattern.symbols := by
    refine List.filter_eq_self.mpr fun symbol member => ?_
    obtain ⟨x, _, rfl⟩ := List.mem_map.mp member
    rw [(Pattern.plain_symbol x).2.1, Bool.not_false]
  refine ofString_eq_ok_iff.mpr ⟨c.pattern, ?_, plain.narrow, plain.eq_ofPattern⟩
  rw [String.toList_ofList, kept]

/-- A line that is read has a symbol in it unless it is blank. -/
theorem plain_of_ofString {piece : List Char} (written : (Text.trim piece).isEmpty = false)
    (read : ofString (String.ofList piece) = .ok c) : c.Plain := by
  obtain ⟨p, symbols, narrow, rfl⟩ := ofString_eq_ok_iff.mp read
  rw [String.toList_ofList] at symbols
  refine ⟨List.length_pos_of_ne_nil fun none => ?_, narrow, rfl⟩
  have blank : Text.trim piece = [] := by
    rw [Text.trim_eq_nil_iff]
    intro symbol member
    have gap : isGap symbol = true := by
      have skipped := List.filter_eq_nil_iff.mp (symbols.trans (congrArg Pattern.symbols none))
      simpa using skipped symbol member
    have either : symbol = ' ' ∨ symbol = '\t' := by simpa [isGap] using gap
    rcases either with rfl | rfl <;> decide
  rw [blank] at written
  cases written

end Cube

namespace CubeList

variable {list : CubeList}

theorem ext_toList {other : CubeList} (same : list.toList = other.toList) : list = other := by
  cases list
  cases other
  cases same
  rfl

theorem ofList_toList (list : CubeList) : ofList list.toList = list :=
  ext_toList (toList_ofList list.nodup)

theorem ofString_text_of_plain (plain : ∀ c ∈ list, c.Plain) : ofString list.text = .ok list := by
  let lines := list.toList.map (·.pattern.symbols)
  have lined : list.text.toList = lines.flatMap (· ++ ['\n']) := by
    rw [text, String.toList_ofList, List.flatMap_map]
  have separated : list.text.toList.splitOnP isSeparator = lines ++ [[]] := by
    rw [lined]
    refine Text.splitOnP_ended (by decide) fun line member symbol inside => ?_
    obtain ⟨c, _, rfl⟩ := List.mem_map.mp member
    obtain ⟨x, _, rfl⟩ := List.mem_map.mp inside
    exact (Pattern.plain_symbol x).2.2
  have written : ∀ line ∈ lines, (!(Text.trim line).isEmpty) = true := by
    intro line member
    obtain ⟨c, listed, rfl⟩ := List.mem_map.mp member
    rw [(plain c listed).written, Bool.not_false]
  have kept : (lines ++ [[]]).filter (fun piece => !(Text.trim piece).isEmpty) = lines := by
    have last : [[]].filter (fun piece => !(Text.trim piece).isEmpty) = [] := rfl
    rw [List.filter_append, last, List.append_nil]
    exact List.filter_eq_self.mpr written
  rw [ofString, separated, kept, map_eq_ok_iff]
  refine ⟨list.toList, mapM_eq_ok_iff.mpr ?_, ofList_toList list⟩
  rw [List.map_map]
  exact List.map_congr_left fun c listed => Cube.ofString_symbols (plain c listed)

theorem plain_of_ofString {text : String} (read : ofString text = .ok list) (listed : c ∈ list) :
    c.Plain := by
  obtain ⟨cubes, pieces, rfl⟩ := map_eq_ok_iff.mp read
  have outcomes := mapM_eq_ok_iff.mp pieces
  have member : Except.ok c ∈ cubes.map (Except.ok (ε := Fault)) :=
    List.mem_map_of_mem (mem_ofList.mp listed)
  rw [← outcomes] at member
  obtain ⟨piece, kept, same⟩ := List.mem_map.mp member
  exact Cube.plain_of_ofString (by simpa using (List.mem_filter.mp kept).2) same

end CubeList

theorem Minimized.plain_of_mem_primes {minterms dontcares : IndexSet} {vars : Variables} {form : Form}
    (some : 1 ≤ vars.size) (few : vars.size ≤ Cube.maxWidth)
    (listed : c ∈ (minimize minterms dontcares vars form).primes) : c.Plain := by
  have narrow : vars.size < Minterm.wordSize := few.trans_lt (by decide)
  obtain ⟨p, length, _, rfl⟩ := (mem_primes form narrow).mp listed
  have width : (Cube.ofPattern p).width = vars.size := length
  exact ⟨width ▸ some, width ▸ few, rfl⟩

namespace CubeList

/-- A list of cubes with between 1 and 26 positions, each with the indices that it covers as its origins,
is read back from its text: the same cubes in the same order. The lists that are read are of this kind,
and so are the prime cubes of every function of at least one variable, up to as many as there are
letters. -/
theorem reads_back :
    (∀ list : CubeList, (∀ c ∈ list.toList, 1 ≤ c.width ∧ c.width ≤ 26 ∧ c.origins = c.pattern.covered) →
      ofString list.text = .ok list) ∧
    (∀ (text : String) (list : CubeList), ofString text = .ok list → ofString list.text = .ok list) ∧
    ∀ (minterms dontcares : IndexSet) (vars : Variables) (form : Form),
      1 ≤ vars.size → vars.size ≤ 26 →
      ofString (minimize minterms dontcares vars form).primes.text =
        .ok (minimize minterms dontcares vars form).primes := by
  refine ⟨fun list plain => ofString_text_of_plain fun c listed => ?_, fun text list read => ?_,
    fun minterms dontcares vars form some few => ?_⟩
  · obtain ⟨positive, narrow, origins⟩ := plain c listed
    exact ⟨positive, narrow, origins⟩
  · exact ofString_text_of_plain fun c => plain_of_ofString read
  · exact ofString_text_of_plain fun c => Minimized.plain_of_mem_primes some few

/-- Cubes of different widths, written with gaps and blank pieces, one of them twice. -/
theorem reads_back_repeated :
    let text := "1-0; 0 1 ,\n--1, \t;1-0"
    let list := ofList [.ofPattern [some true, none, some false], .ofPattern [some false, some true],
      .ofPattern [none, none, some true]]
    let vars : Variables := ⟨['A', 'B', 'C']⟩
    let primes := (minimize (.ofList [0, 1, 2, 5, 6]) (.ofList [7]) vars .sop).primes
    (∀ c ∈ list.toList, 1 ≤ c.width ∧ c.width ≤ 26 ∧ c.origins = c.pattern.covered) ∧
      ofString list.text = .ok list ∧ ofString text = .ok list ∧ ofString list.text = .ok list ∧
      1 ≤ vars.size ∧ vars.size ≤ 26 ∧ ofString primes.text = .ok primes := by
  intro text list vars primes
  have plain : ∀ c ∈ list.toList, 1 ≤ c.width ∧ c.width ≤ 26 ∧ c.origins = c.pattern.covered := by
    decide +kernel
  have listed : (ofString text).map (·.toList) = .ok list.toList := by decide +kernel
  have read : ofString text = .ok list := by
    obtain ⟨other, found, same⟩ := map_eq_ok_iff.mp listed
    rwa [← ext_toList same]
  have some : 1 ≤ vars.size := by decide
  have few : vars.size ≤ 26 := by decide
  exact ⟨plain, reads_back.1 list plain, read, reads_back.2.1 text list read, some, few,
    reads_back.2.2 _ _ vars .sop some few⟩

end CubeList

end Switching
