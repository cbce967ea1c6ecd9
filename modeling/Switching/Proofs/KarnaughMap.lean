import Mathlib
import Switching.KarnaughMap
import Switching.Proofs.Minterm

/-! # The cells of Karnaugh maps

A Gray code lists every number of its width once (`perm_grayCode`). So the rows and columns of a map
list every value of their variables once, and each minterm stands in exactly one cell, which
`position?` finds (`existsUnique_index?`, `position?_eq_some_iff`).
-/

namespace Switching

/-! ## Gray codes -/

/-- A number is told by its Gray code. -/
theorem xor_shiftRight_injective : Function.Injective fun n : Nat => n ^^^ (n >>> 1) := by
  intro n m same
  dsimp only at same
  induction n using Nat.strongRecOn generalizing m with
  | ind n ih =>
    have halves : (n >>> 1) ^^^ (n >>> 1 >>> 1) = (m >>> 1) ^^^ (m >>> 1 >>> 1) := by
      rw [← Nat.shiftRight_xor_distrib, ← Nat.shiftRight_xor_distrib, same]
    cases n with
    | zero =>
      -- A number that is its own half is 0.
      have half : m = m >>> 1 := Nat.xor_eq_zero_iff.mp same.symm
      rw [Nat.shiftRight_one] at half
      omega
    | succ n =>
      have smaller : (n + 1) >>> 1 < n + 1 := by
        rw [Nat.shiftRight_one]
        omega
      rw [ih _ smaller halves] at same
      exact Nat.xor_left_injective same

theorem length_grayCode (width : Nat) : (grayCode width).length = 2 ^ width := by
  rw [grayCode, List.length_map, List.length_range, Nat.one_shiftLeft]

theorem nodup_grayCode (width : Nat) : (grayCode width).Nodup :=
  List.nodup_range.map xor_shiftRight_injective

/-- The Gray code of a width lists the numbers of that width, each once. -/
theorem perm_grayCode (width : Nat) : (grayCode width).Perm (List.range (2 ^ width)) := by
  have small : ∀ code ∈ grayCode width, code ∈ List.range (2 ^ width) := by
    intro code member
    obtain ⟨n, listed, rfl⟩ := List.mem_map.mp member
    rw [Nat.one_shiftLeft, List.mem_range] at listed
    exact List.mem_range.mpr (Nat.xor_lt_two_pow listed
      ((Nat.shiftRight_le n 1).trans_lt listed))
  refine (List.subperm_of_subset (nodup_grayCode width) small).perm_of_length_le ?_
  rw [length_grayCode, List.length_range]

theorem mem_grayCode {width code : Nat} : code ∈ grayCode width ↔ code < 2 ^ width := by
  rw [(perm_grayCode width).mem_iff, List.mem_range]

namespace KarnaughMap

variable {map : KarnaughMap} {row col rowCode colCode index : Nat}

theorem size_of_ofVariables {vars : Variables} (found : ofVariables vars = some map) :
    map.size = vars.size := by
  rw [ofVariables, Option.ite_none_left_eq_some] at found
  obtain ⟨_, same⟩ := found
  obtain rfl := Option.some.inj same
  rw [size, ← List.length_append, List.take_append_drop, Variables.size]

/-! ## Indices of cells -/

theorem index?_eq_some_iff : map.index? row col = some index ↔
    ∃ rowCode colCode, map.rowCodes[row]? = some rowCode ∧ map.colCodes[col]? = some colCode ∧
      map.cellIndex rowCode colCode = index := by
  simp [index?, Option.bind_eq_some_iff]

theorem cellIndex_eq (map : KarnaughMap) (rowCode colCode : Nat) :
    map.cellIndex rowCode colCode = 2 ^ map.colVars.length * rowCode + colCode := by
  rw [cellIndex, Nat.shiftLeft_eq, Nat.mul_comm]

/-- The codes of a cell are read off its index. -/
theorem cellIndex_eq_iff (inside : colCode < 2 ^ map.colVars.length) :
    map.cellIndex rowCode colCode = index ↔
      rowCode = index / 2 ^ map.colVars.length ∧ colCode = index % 2 ^ map.colVars.length := by
  rw [cellIndex_eq]
  constructor
  · rintro rfl
    rw [Nat.mul_add_div (Nat.two_pow_pos _), Nat.div_eq_of_lt inside, Nat.mul_add_mod,
      Nat.mod_eq_of_lt inside]
    exact ⟨rfl, rfl⟩
  · rintro ⟨rfl, rfl⟩
    exact Nat.div_add_mod ..

theorem index?_lt (found : map.index? row col = some index) : index < 2 ^ map.size := by
  obtain ⟨rowCode, colCode, atRow, atCol, rfl⟩ := index?_eq_some_iff.mp found
  have high : rowCode < 2 ^ map.rowVars.length := mem_grayCode.mp (List.mem_of_getElem? atRow)
  have low : colCode < 2 ^ map.colVars.length := mem_grayCode.mp (List.mem_of_getElem? atCol)
  calc map.cellIndex rowCode colCode
    _ = 2 ^ map.colVars.length * rowCode + colCode := cellIndex_eq ..
    _ < 2 ^ map.colVars.length * (rowCode + 1) := by
      rw [Nat.mul_add_one]
      omega
    _ ≤ 2 ^ map.colVars.length * 2 ^ map.rowVars.length := Nat.mul_le_mul_left _ high
    _ = 2 ^ map.size := by rw [← Nat.pow_add, size, Nat.add_comm]

/-- Each minterm stands in exactly one cell. -/
theorem existsUnique_index? (inside : index < 2 ^ map.size) :
    ∃! position : Nat × Nat, map.index? position.1 position.2 = some index := by
  have high : index / 2 ^ map.colVars.length < 2 ^ map.rowVars.length := by
    rw [Nat.div_lt_iff_lt_mul (Nat.two_pow_pos _), ← Nat.pow_add]
    exact inside
  have low := Nat.mod_lt index (Nat.two_pow_pos map.colVars.length)
  obtain ⟨row, atRow⟩ := List.getElem?_of_mem (mem_grayCode.mpr high)
  obtain ⟨col, atCol⟩ := List.getElem?_of_mem (mem_grayCode.mpr low)
  refine ⟨(row, col), index?_eq_some_iff.mpr ⟨_, _, atRow, atCol, (cellIndex_eq_iff low).mpr ⟨rfl, rfl⟩⟩,
    ?_⟩
  rintro ⟨otherRow, otherCol⟩ found
  obtain ⟨rowCode, colCode, inRow, inCol, same⟩ := index?_eq_some_iff.mp found
  have small := mem_grayCode.mp (List.mem_of_getElem? inCol)
  obtain ⟨rfl, rfl⟩ := (cellIndex_eq_iff small).mp same
  have rowInside := (List.getElem?_eq_some_iff.mp inRow).1
  have colInside := (List.getElem?_eq_some_iff.mp inCol).1
  exact Prod.ext
    ((List.getElem?_inj rowInside (nodup_grayCode _)).mp (inRow.trans atRow.symm))
    ((List.getElem?_inj colInside (nodup_grayCode _)).mp (inCol.trans atCol.symm))

/-! ## Positions of indices -/

theorem mem_cells : (row, col, index) ∈ map.cells ↔ map.index? row col = some index := by
  rw [index?_eq_some_iff]
  simp only [cells, List.mem_flatMap, List.mem_map, Prod.exists, List.mem_zipIdx_iff_getElem?,
    Prod.mk.injEq]
  constructor
  · rintro ⟨rowCode, _, atRow, colCode, _, atCol, rfl, rfl, same⟩
    exact ⟨rowCode, colCode, atRow, atCol, same⟩
  · rintro ⟨rowCode, colCode, atRow, atCol, same⟩
    exact ⟨rowCode, row, atRow, colCode, col, atCol, rfl, rfl, same⟩

theorem index?_of_find? {other : Nat}
    (first : map.cells.find? (·.2.2 == index) = some (row, col, other)) :
    map.index? row col = some index := by
  have matched : other = index := by simpa using List.find?_some first
  exact matched ▸ mem_cells.mp (List.mem_of_find?_eq_some first)

/-- The position of a minterm is that of the cell with its index. -/
theorem position?_eq_some_iff :
    map.position? index = some (row, col) ↔ map.index? row col = some index := by
  constructor
  · intro found
    obtain ⟨⟨_, _, _⟩, first, same⟩ := Option.map_eq_some_iff.mp found
    cases same
    exact index?_of_find? first
  · intro found
    have listed : (map.cells.find? (·.2.2 == index)).isSome :=
      List.find?_isSome.mpr ⟨_, mem_cells.mpr found, beq_self_eq_true index⟩
    obtain ⟨⟨otherRow, otherCol, other⟩, first⟩ := Option.isSome_iff_exists.mp listed
    have same : (otherRow, otherCol) = (row, col) :=
      (existsUnique_index? (index?_lt found)).unique (index?_of_find? first) found
    rw [position?, first]
    exact congrArg some same

end KarnaughMap

end Switching
