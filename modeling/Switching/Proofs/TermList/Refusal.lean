import Switching.Proofs.TermList.Continuation
import Switching.TermList.Report

/-! # Where the rules of lists of terms give up

A text that is not a list of terms is stuck in one of four ways (`Stuck`): behind a comma, behind the
minterms, inside of don't-care terms that are never closed, or behind complete ones. No rule fails
further on than there (`Stuck.furthest`), and what is missing there could have made a list of terms of
the text (`Stuck.canFollow`).
-/

namespace Switching.TermList

open Text

variable {text rest digits : List Char} {numerals others minterms : List (List Char)}

namespace Rule

variable {middle inner after here there : List Char} {part : TermPart} {parts : List TermPart}

/-! ## Where a numeral is missing -/

/-- Where the numerals of a list stop when `rest` follows them: behind a comma, if there is one. -/
def lack (numerals : List (List Char)) (rest : List Char) : List Char :=
  if numerals = [] then rest.dropWhile isGap
  else (afterComma (rest.dropWhile isGap)).dropWhile isGap

theorem lack_nil : lack [] rest = rest.dropWhile isGap :=
  if_pos rfl

theorem lack_cons : lack (digits :: numerals) rest =
    (afterComma (rest.dropWhile isGap)).dropWhile isGap :=
  if_neg (List.cons_ne_nil digits numerals)

theorem afterComma_of_stops (stops : Stops (· == ',') text) : afterComma text = text := by
  refine if_neg fun comma => ?_
  cases stops ',' comma

theorem another_eq_value (text : List Char) :
    another text = value ((afterComma text).dropWhile isGap) := by
  by_cases stops : Stops (· == ',') text
  · rw [another_of_stops stops, afterComma_of_stops stops]
  · obtain ⟨after, rfl⟩ := exists_comma stops
    exact another_comma after

theorem lack_eq (stops : Stops (· == ',') (rest.dropWhile isGap)) (numerals : List (List Char)) :
    lack numerals rest = rest.dropWhile isGap := by
  rw [lack, afterComma_of_stops stops, List.dropWhile_idempotent, ite_self]

theorem lack_gaps {gaps : List Char} (isGaps : IsGaps gaps) (numerals : List (List Char)) :
    lack numerals (gaps ++ rest) = lack numerals rest := by
  rw [lack, lack, List.dropWhile_append_of_pos isGaps]

theorem lack_eq_of_comma (comma : rest.dropWhile isGap = ',' :: after) :
    lack (digits :: numerals) rest = after.dropWhile isGap := by
  rw [lack_cons, comma]
  rfl

/-- Numerals stop further on than the gaps behind them just at a comma. -/
theorem exists_comma_of_lack_ne (further : lack numerals rest ≠ rest.dropWhile isGap) :
    numerals ≠ [] ∧ ∃ after, rest.dropWhile isGap = ',' :: after ∧
      lack numerals rest = after.dropWhile isGap := by
  cases numerals with
  | nil => exact absurd lack_nil further
  | cons digits numerals =>
    obtain ⟨after, comma⟩ := exists_comma fun stops => further (lack_eq stops _)
    exact ⟨List.cons_ne_nil digits numerals, after, comma, lack_eq_of_comma comma⟩

theorem lack_ne_of_comma (comma : rest.dropWhile isGap = ',' :: after) :
    lack (digits :: numerals) rest ≠ rest.dropWhile isGap := by
  intro same
  rw [lack_eq_of_comma comma, comma] at same
  have shorter := List.length_dropWhile_le isGap after
  rw [same, List.length_cons] at shorter
  exact Nat.not_succ_le_self _ shorter

theorem length_lack_lt (further : lack numerals rest ≠ rest.dropWhile isGap) :
    (lack numerals rest).length < (rest.dropWhile isGap).length := by
  obtain ⟨-, after, comma, same⟩ := exists_comma_of_lack_ne further
  rw [comma, same, List.length_cons]
  exact Nat.lt_succ_of_le (List.length_dropWhile_le ..)

theorem length_lack_le (numerals : List (List Char)) (rest : List Char) :
    (lack numerals rest).length ≤ (rest.dropWhile isGap).length := by
  by_cases same : lack numerals rest = rest.dropWhile isGap
  · exact (congrArg List.length same).le
  · exact (length_lack_lt same).le

theorem tries_further (text : List Char) :
    Tries ((afterComma (text.dropWhile isGap)).dropWhile isGap)
      ((afterComma ((Parsing.further isGap another text).2.dropWhile isGap)).dropWhile isGap) ∧
    another ((Parsing.further isGap another text).2.dropWhile isGap) = none := by
  fun_induction Parsing.further isGap another text with
  | case1 text digits rest read shorter others last same ih =>
    rw [same] at ih
    rw [another_eq_value] at read
    exact ⟨.another read ih.1, ih.2⟩
  | case2 text digits rest read shorter =>
    exact absurd ((consumes_another _ _ _ read).trans_le (List.length_dropWhile_le ..)) shorter
  | case3 text failed => exact ⟨.first, failed⟩

theorem tries_lack (listed : list (text.dropWhile isGap) = some (numerals, rest)) :
    Tries (text.dropWhile isGap) (lack numerals rest) ∧ value (lack numerals rest) = none := by
  cases read : value (text.dropWhile isGap) with
  | none =>
    cases (list_of_stops (Parsing.word_eq_none_iff.mp read)).symm.trans listed
    rw [lack_nil, List.dropWhile_idempotent]
    exact ⟨.first, read⟩
  | some found =>
    obtain ⟨digits, later⟩ := found
    obtain ⟨gaps, last, isGaps, split, same⟩ := list_of_value read
    cases same.symm.trans listed
    obtain ⟨tries, failed⟩ := tries_further later
    rw [split, List.dropWhile_append_of_pos isGaps] at tries failed
    rw [lack_cons, ← another_eq_value]
    exact ⟨.another read tries, failed⟩

/-- A list stops at one place only. -/
theorem Tries.eq_of_value_eq_none (tries : Tries text here) (failed : value here = none)
    (also : Tries text there) (fails : value there = none) : here = there := by
  induction tries with
  | first =>
    cases also with
    | first => rfl
    | another read _ => cases failed.symm.trans read
  | another read _ ih =>
    cases also with
    | first => cases fails.symm.trans read
    | another again later =>
      cases read.symm.trans again
      exact ih failed later

theorem eq_lack_of_tries (listed : list (text.dropWhile isGap) = some (numerals, rest))
    (tries : Tries (text.dropWhile isGap) here) (failed : value here = none) :
    here = lack numerals rest := by
  obtain ⟨last, fails⟩ := tries_lack listed
  exact tries.eq_of_value_eq_none failed last fails

/-- Where a list stops, any numeral could have gone on with it. -/
theorem exists_front_of_list (listed : list (text.dropWhile isGap) = some (numerals, rest)) :
    ∃ front, text = front ++ lack numerals rest ∧
      ∀ digits, IsNumeral digits → ∃ longer, PaddedNumerals (front ++ digits) longer := by
  obtain ⟨padded, padding, whole⟩ := exists_padded_of_list listed
  by_cases same : lack numerals rest = rest.dropWhile isGap
  · exact ⟨padded, same ▸ whole, fun _ => padding.exists_append⟩
  · obtain ⟨nonempty, after, comma, lacks⟩ := exists_comma_of_lack_ne same
    obtain ⟨gaps, isGaps, split⟩ := exists_skipped isGap after
    refine ⟨padded ++ ',' :: gaps, ?_, fun _ => padding.exists_append_comma nonempty isGaps⟩
    rw [lacks, List.append_assoc, List.cons_append, ← split, ← comma]
    exact whole

theorem length_of_list (listed : list (text.dropWhile isGap) = some (numerals, rest)) :
    (rest.dropWhile isGap).length ≤ text.length := by
  obtain ⟨padded, -, whole⟩ := exists_padded_of_list listed
  rw [whole, List.length_append]
  exact Nat.le_add_left ..

theorem length_of_opening (opened : opening text = some ((), rest)) : rest.length < text.length := by
  obtain ⟨_, ⟨_, _, _, _, _, _, rfl⟩, rfl⟩ := opening_eq_some_iff.mp opened
  simp only [List.length_append, List.length_cons]
  omega

theorem lack_eq_of_opening (opened : opening (rest.dropWhile isGap) = some ((), inner))
    (numerals : List (List Char)) : lack numerals rest = rest.dropWhile isGap := by
  obtain ⟨_, _, _, -, plus, -⟩ := opening_eq_some_iff_chars.mp opened
  exact lack_eq (plus ▸ stops_cons.mpr rfl) numerals

theorem lack_eq_of_completes (completes : Completes others (rest.dropWhile isGap))
    (numerals : List (List Char)) : lack numerals rest = rest.dropWhile isGap := by
  obtain ⟨empty, -⟩ | ⟨after, found, -⟩ := completes
  · exact lack_eq (empty ▸ stops_nil) numerals
  · obtain ⟨_, _, opened, -⟩ := dontcares_eq_some_iff_list.mp found
    exact lack_eq_of_opening opened numerals

theorem dontcares_of_opening (failed : opening text = none) : dontcares text = none := by
  rw [Option.eq_none_iff_forall_ne_some]
  rintro ⟨others, rest⟩ read
  obtain ⟨_, _, opened, -⟩ := dontcares_eq_some_iff_list.mp read
  cases failed.symm.trans opened

/-! ## Four ways to be stuck -/

/-- Where a text stops making sense, and what is missing there, when `middle` follows its
minterms. -/
inductive Stuck (minterms : List (List Char)) (middle : List Char) :
    List Char → List TermPart → Prop where
  /-- No numeral follows a comma. -/
  | comma : lack minterms middle ≠ middle.dropWhile isGap →
      Stuck minterms middle (lack minterms middle) [.value]
  /-- What follows the minterms does not open don't-care terms. -/
  | unopened : lack minterms middle = middle.dropWhile isGap →
      opening (middle.dropWhile isGap) = none → middle.dropWhile isGap ≠ [] →
      Stuck minterms middle (middle.dropWhile isGap) [.ending, .dontcares, .value]
  /-- The don't-care terms are not closed. -/
  | unclosed {inner last : List Char} {others : List (List Char)} :
      opening (middle.dropWhile isGap) = some ((), inner) →
      list (inner.dropWhile isGap) = some (others, last) →
      (∀ after, last.dropWhile isGap ≠ ')' :: after) → Stuck minterms middle (lack others last) [.value]
  /-- The text goes on after its don't-care terms. -/
  | unfinished {after : List Char} {others : List (List Char)} :
      dontcares (middle.dropWhile isGap) = some (others, after) → after.dropWhile isGap ≠ [] →
      Stuck minterms middle (after.dropWhile isGap) [.ending]

theorem exists_stuck_of_not_completes
    (fails : ∀ others, ¬ Completes others (middle.dropWhile isGap)) (minterms : List (List Char)) :
    ∃ rest parts, Stuck minterms middle rest parts := by
  by_cases same : lack minterms middle = middle.dropWhile isGap
  · cases opened : opening (middle.dropWhile isGap) with
    | none => exact ⟨_, _, .unopened same opened fun empty => fails [] (.inl ⟨empty, rfl⟩)⟩
    | some found =>
      obtain ⟨⟨⟩, inner⟩ := found
      obtain ⟨others, last, listed⟩ := exists_list (inner.dropWhile isGap)
      by_cases closes : ∃ after, last.dropWhile isGap = ')' :: after
      · obtain ⟨after, closes⟩ := closes
        have read := dontcares_eq_some_iff_list.mpr ⟨inner, last, opened, listed, closes⟩
        refine ⟨_, _, .unfinished read fun empty => fails others (.inr ⟨after, read, ?_⟩)⟩
        exact List.dropWhile_eq_nil_iff.mp empty
      · exact ⟨_, _, .unclosed opened listed (not_exists.mp closes)⟩
  · exact ⟨_, _, .comma same⟩

/-- A text that the rules do not read is stuck. -/
theorem exists_stuck (failed : terms text = none) : ∃ minterms middle,
    list (text.dropWhile isGap) = some (minterms, middle) ∧
      ∃ rest parts, Stuck minterms middle rest parts := by
  obtain ⟨minterms, middle, listed⟩ := exists_list (text.dropWhile isGap)
  refine ⟨minterms, middle, listed, exists_stuck_of_not_completes (fun others completes => ?_) minterms⟩
  have read := terms_eq_some_iff_list.mpr ⟨rfl, middle, listed, completes⟩
  cases failed.symm.trans read

/-! ## What fails -/

theorem length_lt_of_unclosed (opened : opening (middle.dropWhile isGap) = some ((), inner))
    (listed : list (inner.dropWhile isGap) = some (others, rest)) :
    (lack others rest).length < (middle.dropWhile isGap).length :=
  (length_lack_le others rest).trans_lt
    ((length_of_list listed).trans_lt (length_of_opening opened))

theorem length_lt_of_dontcares (read : dontcares text = some (others, after)) :
    (after.dropWhile isGap).length < text.length := by
  obtain ⟨inner, last, opened, listed, closes⟩ := dontcares_eq_some_iff_list.mp read
  have gaps := List.length_dropWhile_le isGap after
  have inside := length_of_list listed
  have outside := length_of_opening opened
  rw [closes, List.length_cons] at inside
  omega

namespace Stuck

variable (stuck : Stuck minterms middle rest parts)
include stuck

theorem length_lt_or : rest.length < (middle.dropWhile isGap).length ∨
    rest = middle.dropWhile isGap ∧ parts = [.ending, .dontcares, .value] := by
  cases stuck with
  | comma further => exact .inl (length_lack_lt further)
  | unopened _ _ _ => exact .inr ⟨rfl, rfl⟩
  | unclosed opened listed _ => exact .inl (length_lt_of_unclosed opened listed)
  | unfinished read _ => exact .inl (length_lt_of_dontcares read)

theorem parts_eq : parts = [.value] ∨ parts = [.ending, .dontcares, .value] ∨ parts = [.ending] := by
  cases stuck with
  | comma _ => exact .inl rfl
  | unopened _ _ _ => exact .inr (.inl rfl)
  | unclosed _ _ _ => exact .inl rfl
  | unfinished _ _ => exact .inr (.inr rfl)

theorem parts_ne_nil : parts ≠ [] := by
  obtain rfl | rfl | rfl := stuck.parts_eq <;> decide

/-- A comma that no numeral follows is where a text is stuck, if there is one. -/
theorem eq_of_lack_ne (further : lack minterms middle ≠ middle.dropWhile isGap) :
    rest = lack minterms middle ∧ parts = [.value] := by
  cases stuck with
  | comma _ => exact ⟨rfl, rfl⟩
  | unopened same _ _ => exact absurd same further
  | unclosed opened _ _ => exact absurd (lack_eq_of_opening opened minterms) further
  | unfinished read _ =>
    obtain ⟨_, _, opened, -⟩ := dontcares_eq_some_iff_list.mp read
    exact absurd (lack_eq_of_opening opened minterms) further

theorem le_minterm : rest.length < (lack minterms middle).length ∨
    lack minterms middle = rest ∧ .value ∈ parts := by
  by_cases same : lack minterms middle = middle.dropWhile isGap
  · rw [same]
    obtain shorter | ⟨rfl, rfl⟩ := stuck.length_lt_or
    · exact .inl shorter
    · exact .inr ⟨rfl, by decide⟩
  · obtain ⟨rfl, rfl⟩ := stuck.eq_of_lack_ne same
    exact .inr ⟨rfl, List.mem_singleton_self _⟩

theorem le_middle : rest.length < (middle.dropWhile isGap).length ∨
    middle.dropWhile isGap = rest ∧ .dontcares ∈ parts ∧ .ending ∈ parts := by
  obtain shorter | ⟨rfl, rfl⟩ := stuck.length_lt_or
  · exact .inl shorter
  · exact .inr ⟨rfl, by decide, by decide⟩

theorem eq_of_opening {last : List Char}
    (opened : opening (middle.dropWhile isGap) = some ((), inner))
    (listed : list (inner.dropWhile isGap) = some (others, last)) :
    (∀ after, last.dropWhile isGap ≠ ')' :: after) ∧ rest = lack others last ∧ parts = [.value] ∨
      ∃ after, last.dropWhile isGap = ')' :: after ∧ rest = after.dropWhile isGap ∧
        parts = [.ending] := by
  cases stuck with
  | comma further => exact absurd (lack_eq_of_opening opened minterms) further
  | unopened _ failed _ => cases failed.symm.trans opened
  | unclosed again also unclosed =>
    cases opened.symm.trans again
    cases listed.symm.trans also
    exact .inl ⟨unclosed, rfl, rfl⟩
  | unfinished read _ =>
    obtain ⟨_, _, again, also, closes⟩ := dontcares_eq_some_iff_list.mp read
    cases opened.symm.trans again
    cases listed.symm.trans also
    exact .inr ⟨_, closes, rfl, rfl⟩

theorem le_dontcare {last : List Char}
    (opened : opening (middle.dropWhile isGap) = some ((), inner))
    (listed : list (inner.dropWhile isGap) = some (others, last)) :
    rest.length < (lack others last).length ∨ lack others last = rest ∧ .value ∈ parts := by
  obtain ⟨-, rfl, rfl⟩ | ⟨after, closes, rfl, rfl⟩ := stuck.eq_of_opening opened listed
  · exact .inr ⟨rfl, List.mem_singleton_self _⟩
  · have gaps := List.length_dropWhile_le isGap after
    rw [lack_eq (closes ▸ stops_cons.mpr rfl), closes, List.length_cons]
    exact .inl (by omega)

theorem eq_ending (read : dontcares (middle.dropWhile isGap) = some (others, after)) :
    after.dropWhile isGap = rest ∧ .ending ∈ parts := by
  obtain ⟨inner, last, opened, listed, closes⟩ := dontcares_eq_some_iff_list.mp read
  obtain ⟨unclosed, -⟩ | ⟨_, also, rfl, rfl⟩ := stuck.eq_of_opening opened listed
  · exact absurd closes (unclosed after)
  · cases closes.symm.trans also
    exact ⟨rfl, List.mem_singleton_self _⟩

/-- Nothing fails further on than where a text is stuck, and there fails only what is missing. -/
theorem furthest (listed : list (text.dropWhile isGap) = some (minterms, middle))
    (fails : Fails text part here) : rest.length < here.length ∨ here = rest ∧ part ∈ parts := by
  cases fails with
  | minterm tries failed =>
    obtain rfl := eq_lack_of_tries listed tries failed
    exact stuck.le_minterm
  | dontcares also failed =>
    cases listed.symm.trans also
    exact stuck.le_middle.imp_right fun ⟨same, member, _⟩ => ⟨same, member⟩
  | dontcare also opened tries failed =>
    cases listed.symm.trans also
    obtain ⟨others, last, inside⟩ := exists_list _
    obtain rfl := eq_lack_of_tries inside tries failed
    exact stuck.le_dontcare opened inside
  | ending also group ends =>
    cases listed.symm.trans also
    cases found : dontcares (middle.dropWhile isGap) with
    | none =>
      cases (Parsing.optional_of_none found).symm.trans group
      rw [List.dropWhile_idempotent]
      exact stuck.le_middle.imp_right fun ⟨same, _, member⟩ => ⟨same, member⟩
    | some result =>
      cases (Parsing.optional_of_some found).symm.trans group
      exact .inr (stuck.eq_ending found)

theorem fails (listed : list (text.dropWhile isGap) = some (minterms, middle))
    (member : part ∈ parts) : Fails text part rest := by
  obtain ⟨tries, failed⟩ := tries_lack listed
  cases stuck with
  | comma _ =>
    obtain rfl := List.mem_singleton.mp member
    exact .minterm tries failed
  | unopened same unopened goes =>
    have absent := dontcares_of_opening unopened
    simp only [List.mem_cons, List.not_mem_nil, or_false] at member
    obtain rfl | rfl | rfl := member
    · have ends : Parsing.ending ((middle.dropWhile isGap).dropWhile isGap) = none := by
        rwa [List.dropWhile_idempotent, Parsing.ending_eq_none_iff]
      have ending := Fails.ending listed (Parsing.optional_of_none absent) ends
      rwa [List.dropWhile_idempotent] at ending
    · exact .dontcares listed absent
    · rw [same] at tries failed
      exact .minterm tries failed
  | unclosed opened inside _ =>
    obtain rfl := List.mem_singleton.mp member
    obtain ⟨tries, failed⟩ := tries_lack inside
    exact .dontcare listed opened tries failed
  | unfinished read goes =>
    obtain rfl := List.mem_singleton.mp member
    exact .ending listed (Parsing.optional_of_some read) (Parsing.ending_eq_none_iff.mpr goes)

/-- What is missing could have gone on with what was read. -/
theorem canFollow (listed : list (text.dropWhile isGap) = some (minterms, middle)) :
    ∃ front, text = front ++ rest ∧ ∀ part ∈ parts, CanFollow front part := by
  obtain ⟨padded, padding, whole⟩ := exists_padded_of_list listed
  obtain ⟨front, split, longer⟩ := exists_front_of_list listed
  have value : CanFollow front .value := fun digits numeral => by
    obtain ⟨numerals, padding⟩ := longer digits numeral
    exact ⟨[], numerals, [], (List.append_nil _).symm ▸ .minterms padding⟩
  cases stuck with
  | comma _ => exact ⟨front, split, List.forall_mem_singleton.mpr value⟩
  | unopened same _ _ =>
    rw [same] at split
    obtain rfl : padded = front := List.append_cancel_right (whole.symm.trans split)
    have ending : CanFollow padded .ending := ⟨minterms, [], .minterms padding⟩
    have dontcares : CanFollow padded .dontcares := padding.canFollow_dontcares
    exact ⟨padded, whole, by simp [value, dontcares, ending]⟩
  | unclosed opened inside _ =>
    obtain ⟨mark, opens, begun⟩ := opening_eq_some_iff.mp opened
    obtain ⟨inner, goes, longer⟩ := exists_front_of_list inside
    refine ⟨padded ++ mark ++ inner, ?_, List.forall_mem_singleton.mpr fun digits numeral => ?_⟩
    · rw [whole, begun, goes]
      simp only [List.append_assoc]
    · obtain ⟨others, wraps⟩ := longer digits numeral
      have written := Written.dontcares padding opens wraps isGaps_nil
      rw [← List.append_assoc] at written
      exact ⟨_, _, _, written⟩
  | @unfinished after _ read _ =>
    obtain ⟨mark, inner, opens, wraps, behind⟩ := dontcares_eq_some_iff.mp read
    obtain ⟨gaps, isGaps, goes⟩ := exists_skipped isGap after
    have closes : ')' :: after = ')' :: gaps ++ after.dropWhile isGap := congrArg (List.cons ')') goes
    refine ⟨_, ?_, List.forall_mem_singleton.mpr ⟨_, _, .dontcares padding opens wraps isGaps⟩⟩
    rw [whole, behind, closes]
    simp only [List.append_assoc]

/-- Where a text is stuck is what is reported of it. -/
theorem reports (listed : list (text.dropWhile isGap) = some (minterms, middle)) {front : List Char}
    (split : text = front ++ rest) :
    Reports text front rest (if front.isEmpty then [.terms] else parts) where
  split := split
  furthest part here fails := by
    obtain further | ⟨rfl, -⟩ := stuck.furthest listed fails
    · exact further.le
    · exact Nat.le_refl _
  failing := by
    refine ⟨parts, stuck.parts_ne_nil, ?_, fun part => ⟨stuck.fails listed, fun fails => ?_⟩, rfl⟩
    · obtain rfl | rfl | rfl := stuck.parts_eq <;> decide
    · obtain further | ⟨-, member⟩ := stuck.furthest listed fails
      · exact absurd further (Nat.lt_irrefl _)
      · exact member

end Stuck

end Rule

end Switching.TermList
