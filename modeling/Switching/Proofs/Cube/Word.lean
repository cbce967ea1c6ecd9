import Switching.Cube.Word
import Switching.Proofs.Minterm.Lengthening
import Switching.Proofs.Outcome
import Switching.Proofs.Pattern.Rotation
import Switching.Proofs.PrimeSearch.Renaming

/-! # Cubes of words

Up to 64 variables, the cube of a word is that of its number, and it covers the same words
(`ofWord?_of_narrow`, `coversBy_of_narrow`). Over more variables, the first one is refused unless shifts wrap.
If they do, the cubes are those of the longer numbers with the bits that are read again in front of the
others. To put these behind the others is a renaming (`renames_lengthen`) from the cubes of words to those of
their longer numbers (`lengthen_ofWord`), and a cube covers a word when the renamed one covers its longer
number (`coversBy_wrapping_eq`).
-/

namespace Switching.Cube

open Minterm

variable {c : Cube} {width index : Nat} {shift : Shift}

/-! ## The cube of a word -/

theorem ofWord?_wrapping (word : index < 2 ^ wordSize) : ofWord? .wrapping index width =
    some ⟨(wordBits width index).map some, .singleton index⟩ := by
  have number : (UInt64.ofNat index).toNat = index := UInt64.toNat_ofNat_of_lt' word
  rw [ofWord?, mapM_eq_some fun position member => Word.bitBy?_wrapping (List.mem_range.mp member),
    Option.map_some, number, wordBits]

/-- Up to as many variables as a word has bits, a word has the cube of its number. -/
theorem ofWord?_of_narrow (shift : Shift) (word : index < 2 ^ wordSize) (narrow : width ≤ wordSize) :
    ofWord? shift index width = some (ofMinterm index width) := by
  have number : (UInt64.ofNat index).toNat = index := UInt64.toNat_ofNat_of_lt' word
  have listed : (List.range width).map (bitAt index width) = bits width index := by
    refine List.ext_getElem (by simp) fun position left right => ?_
    rw [getElem_bits, List.getElem_map, List.getElem_range]
  rw [ofWord?,
    mapM_eq_some fun position member => Word.bitBy?_of_narrow shift (List.mem_range.mp member) narrow,
    Option.map_some, number, listed, ofMinterm]

/-- Over more variables the first bit is refused. -/
theorem ofWord?_checked_of_wide (index : Nat) (wide : wordSize < width) :
    ofWord? .checked index width = none := by
  have range : List.range width = 0 :: (List.range (width - 1)).map Nat.succ := by
    rw [← List.range_succ_eq_map, Nat.sub_one_add_one (Nat.ne_zero_of_lt wide)]
  rw [ofWord?, range, mapM_eq_none (Word.bitBy?_checked_zero wide), Option.map_none]

/-! ## The words that a cube covers -/

theorem coversBy_of_narrow (shift : Shift) (word : index < 2 ^ wordSize) (narrow : c.width ≤ wordSize) :
    c.coversBy shift index = c.covers index := by
  have number : (UInt64.ofNat index).toNat = index := UInt64.toNat_ofNat_of_lt' word
  rw [coversBy, covers, Pattern.covers]
  refine congrArg (inRange index c.width && ·) ?_
  rw [Bool.eq_iff_iff, List.all_eq_true, Pattern.agrees_iff_fixed]
  refine forall₂_congr fun entry member => ?_
  have inside : entry.1 < c.width := Pattern.lt_of_mem_fixed member
  rw [Word.bitBy?_of_narrow shift inside narrow, number, beq_iff_eq, Option.some.injEq]
  rfl

theorem coversBy_wrapping_iff (word : index < 2 ^ wordSize) : c.coversBy .wrapping index = true ↔
    inRange index c.width = true ∧ c.pattern.Fits (wordBits c.width index) := by
  have number : (UInt64.ofNat index).toNat = index := UInt64.toNat_ofNat_of_lt' word
  have same : (wordBits c.width index).length = c.pattern.length := length_wordBits ..
  rw [coversBy, Bool.and_eq_true, List.all_eq_true, Prod.forall, Pattern.fits_iff_getElem? same]
  refine and_congr_right fun _ => forall₂_congr fun position value => ?_
  rw [Pattern.mem_fixed]
  refine forall_congr' fun found => ?_
  have inside : position < c.width := (List.getElem?_eq_some_iff.mp found).1
  rw [Word.bitBy?_wrapping inside, number, beq_iff_eq]
  simp [wordBits, inside]

/-! ## Longer numbers -/

/-- The cube of the longer numbers. -/
def lengthen (width : Nat) (c : Cube) : Cube :=
  ⟨c.pattern.rotate (width - wordSize), c.origins.lengthen width⟩

theorem renames_lengthen (width : Nat) : Renames (lengthen width) where
  injective := by
    intro a b same
    obtain ⟨patterns, origins⟩ := Cube.mk.inj same
    rw [Cube.mk.injEq]
    exact ⟨List.rotate_injective _ patterns, IndexSet.lengthen_injective width origins⟩
  combine?_eq a b := by
    rw [combine?, combine?, Option.map_map]
    simp only [lengthen, Pattern.merge?_rotate, Option.map_map, ← IndexSet.lengthen_union]
    rfl
  ones_eq c := Pattern.ones_rotate c.pattern _

theorem width_lengthen (width : Nat) (c : Cube) : (c.lengthen width).width = c.width :=
  List.length_rotate ..

theorem lengthen_ofWord (width index : Nat) :
    lengthen width ⟨(wordBits width index).map some, .singleton index⟩ =
      ofMinterm (Minterm.lengthen width index) width := by
  rw [lengthen, ofMinterm, IndexSet.lengthen_singleton, ← List.map_rotate, rotate_wordBits]

theorem lengthen_of_narrow (narrow : width ≤ wordSize) : c.lengthen width = c := by
  rw [lengthen, IndexSet.lengthen_of_narrow narrow, Nat.sub_eq_zero_of_le narrow, List.rotate_zero]

/-- A cube covers a word when the cube of the longer numbers covers the longer number of the word. -/
theorem coversBy_wrapping_eq (word : index < 2 ^ wordSize) : c.coversBy .wrapping index =
    (c.lengthen c.width).covers (Minterm.lengthen c.width index) := by
  have range : inRange (Minterm.lengthen c.width index) c.width = inRange index c.width := by
    rcases Nat.le_total c.width wordSize with narrow | wide
    · rw [Minterm.lengthen_of_narrow narrow]
    · rw [inRange, inRange, decide_eq_true wide, Bool.true_or, Bool.true_or]
  have same : (wordBits c.width index).length = c.pattern.length := length_wordBits ..
  rw [Bool.eq_iff_iff]
  calc c.coversBy .wrapping index = true
    _ ↔ inRange index c.width = true ∧ c.pattern.Fits (wordBits c.width index) :=
      coversBy_wrapping_iff word
    _ ↔ inRange (Minterm.lengthen c.width index) c.width = true ∧
          Pattern.Fits (c.pattern.rotate (c.width - wordSize))
            (bits c.width (Minterm.lengthen c.width index)) := by
      rw [range, ← rotate_wordBits, Pattern.fits_rotate_iff same]
    _ ↔ (c.lengthen c.width).covers (Minterm.lengthen c.width index) = true := by
      rw [covers, Pattern.covers, Bool.and_eq_true, Pattern.agrees_iff_fits]
      simp only [lengthen, List.length_rotate]
      rfl

end Switching.Cube
