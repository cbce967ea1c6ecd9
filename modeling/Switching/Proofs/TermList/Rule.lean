import Switching.Proofs.Text.Parsing
import Switching.TermList.Grammar
import Switching.TermList.Rule

/-! # What the rules of lists of terms read

The rules read exactly the lists of terms that the grammar describes (`terms_eq_some_iff`), although
they never reconsider what they have read: after a list of numerals stands neither a numeral nor a
comma, so that reading as much as possible reads all of it and no more.
-/

namespace Switching.TermList

open Text

variable {text rest padded inner gaps digits : List Char}
variable {numerals others minterms : List (List Char)}

/-! ## Numerals one by one -/

/-- What may stand before a further numeral: gaps, or a comma and gaps. -/
def IsLead (text : List Char) : Prop :=
  ∃ gaps, IsGaps gaps ∧ (text = gaps ∨ text = ',' :: gaps)

theorem isSeparation_iff : IsSeparation text ↔
    text ≠ [] ∧ ∃ gaps lead, IsGaps gaps ∧ IsLead lead ∧ text = gaps ++ lead := by
  refine and_congr_right fun _ => ?_
  constructor
  · rintro ⟨before, after, left, right, rfl | rfl⟩
    · exact ⟨before, after, left, ⟨after, right, .inl rfl⟩, rfl⟩
    · exact ⟨before, ',' :: after, left, ⟨after, right, .inr rfl⟩, rfl⟩
  · rintro ⟨before, lead, left, ⟨after, right, rfl | rfl⟩, rfl⟩
    · exact ⟨before, lead, left, right, .inl rfl⟩
    · exact ⟨before, after, left, right, .inr rfl⟩

/-- A text is a list of numerals with something before each of them that separates it from a numeral
in front. -/
inductive MoreNumerals : List Char → List (List Char) → Prop where
  | nil : MoreNumerals [] []
  | cons {separation digits text : List Char} {rest : List (List Char)} :
      IsSeparation separation → IsNumeral digits → MoreNumerals text rest →
      MoreNumerals (separation ++ digits ++ text) (digits :: rest)

theorem numerals_nil_iff : Numerals text [] ↔ text = [] := by
  constructor
  · intro list
    cases list
    rfl
  · rintro rfl
    exact .nil

theorem numerals_cons_iff : Numerals text (digits :: numerals) ↔
    ∃ more, IsNumeral digits ∧ MoreNumerals more numerals ∧ text = digits ++ more := by
  constructor
  · intro list
    induction numerals generalizing text digits with
    | nil =>
      cases list with
      | single numeral => exact ⟨[], numeral, .nil, (List.append_nil _).symm⟩
    | cons next numerals ih =>
      cases list with
      | @cons _ separation later _ _ numeral separates list =>
        obtain ⟨more, second, rest, rfl⟩ := ih list
        refine ⟨_, numeral, .cons separates second rest, ?_⟩
        rw [List.append_assoc, List.append_assoc]
  · rintro ⟨more, numeral, list, rfl⟩
    induction list generalizing digits with
    | nil =>
      rw [List.append_nil]
      exact .single numeral
    | @cons separation next later rest separates second _ ih =>
      have whole : digits ++ (separation ++ next ++ later) =
          digits ++ separation ++ (next ++ later) := by
        simp only [List.append_assoc]
      rw [whole]
      exact .cons numeral separates (ih second)

/-! ## Where lists of numerals end -/

theorem isGap_of_isDigit {c : Char} (digit : c.isDigit = true) : isGap c = false := by
  rw [isGap, Bool.or_eq_false_iff, decide_eq_false_iff_not, decide_eq_false_iff_not]
  constructor <;> rintro rfl <;> cases digit

theorem stops_digits_of_gap {c : Char} (gap : isGap c = true) : c.isDigit = false := by
  by_contra digit
  rw [isGap_of_isDigit (Bool.eq_true_of_not_eq_false digit)] at gap
  cases gap

theorem IsNumeral.stops_gap (numeral : IsNumeral digits) (rest : List Char) :
    Stops isGap (digits ++ rest) := by
  obtain ⟨nonempty, all⟩ := numeral
  rw [stops_append nonempty]
  exact fun c first => isGap_of_isDigit (all c (List.mem_of_mem_head? first))

theorem IsNumeral.not_stops (numeral : IsNumeral digits) : ¬ Stops Char.isDigit (digits ++ rest) := by
  obtain ⟨nonempty, all⟩ := numeral
  rw [stops_append nonempty]
  intro stops
  have first := List.head?_eq_some_head nonempty
  have none := stops _ first
  rw [all _ (List.head_mem nonempty)] at none
  cases none

theorem IsGaps.stops_digits (list : IsGaps gaps) (stops : Stops Char.isDigit rest) :
    Stops Char.isDigit (gaps ++ rest) := by
  cases gaps with
  | nil => exact stops
  | cons c gaps => exact stops_cons.mpr (stops_digits_of_gap (list c List.mem_cons_self))

theorem IsGaps.stops_comma (list : IsGaps gaps) (stops : Stops (· == ',') rest) :
    Stops (· == ',') (gaps ++ rest) := by
  cases gaps with
  | nil => exact stops
  | cons c gaps =>
    refine stops_cons.mpr (beq_eq_false_iff_ne.mpr ?_)
    rintro rfl
    cases list ',' List.mem_cons_self

theorem IsNumeral.stops_comma (numeral : IsNumeral digits) (rest : List Char) :
    Stops (· == ',') (digits ++ rest) := by
  obtain ⟨nonempty, all⟩ := numeral
  rw [stops_append nonempty]
  intro c first
  refine beq_eq_false_iff_ne.mpr ?_
  rintro rfl
  cases all ',' (List.mem_of_mem_head? first)

theorem IsSeparation.stops_digits (separates : IsSeparation text) (rest : List Char) :
    Stops Char.isDigit (text ++ rest) := by
  obtain ⟨nonempty, before, lead, left, ⟨after, right, rfl | rfl⟩, rfl⟩ := isSeparation_iff.mp separates
  · have gaps : IsGaps (before ++ lead) := List.forall_mem_append.mpr ⟨left, right⟩
    rw [stops_append nonempty, ← List.append_nil (before ++ lead)]
    exact gaps.stops_digits stops_nil
  · rw [List.append_assoc]
    exact left.stops_digits (stops_cons.mpr rfl)

theorem MoreNumerals.stops_digits (list : MoreNumerals text numerals)
    (stops : Stops Char.isDigit rest) : Stops Char.isDigit (text ++ rest) := by
  cases list with
  | nil => exact stops
  | cons separates _ _ =>
    rw [List.append_assoc, List.append_assoc]
    exact separates.stops_digits _

theorem exists_comma (goes : ¬ Stops (· == ',') text) : ∃ after, text = ',' :: after := by
  cases text with
  | nil => exact absurd stops_nil goes
  | cons c after =>
    rw [stops_cons, beq_eq_false_iff_ne, not_not] at goes
    exact ⟨after, goes ▸ rfl⟩

/-- A text that goes on neither with a list of numerals nor with gaps. -/
def Closed (text : List Char) : Prop :=
  ∀ c ∈ text.head?, isGap c = false ∧ c.isDigit = false ∧ c ≠ ','

theorem Closed.stops_gap (closed : Closed text) : Stops isGap text :=
  fun c first => (closed c first).1

theorem Closed.stops_digits (closed : Closed text) : Stops Char.isDigit text :=
  fun c first => (closed c first).2.1

namespace Rule

/-! ## Numerals -/

theorem value_eq_some_iff : value text = some (digits, rest) ↔
    IsNumeral digits ∧ Stops Char.isDigit rest ∧ text = digits ++ rest :=
  Parsing.word_eq_some_iff.trans and_assoc.symm

theorem another_comma (after : List Char) :
    another (',' :: after) = value (after.dropWhile isGap) := by
  have comma : Parsing.char (· == ',') (',' :: after) = some (',', after) :=
    Parsing.char_eq_some_iff.mpr ⟨rfl, rfl⟩
  simp [another, Parsing.map, Parsing.followedBy, Parsing.optional_of_some comma]

theorem another_of_stops (stops : Stops (· == ',') text) :
    another text = value (text.dropWhile isGap) := by
  have absent := Parsing.optional_of_none (Parsing.char_eq_none_iff.mpr stops)
  simp [another, Parsing.map, Parsing.followedBy, absent]

theorem another_eq_some_iff : another text = some (digits, rest) ↔ ∃ lead,
    IsLead lead ∧ IsNumeral digits ∧ Stops Char.isDigit rest ∧ text = lead ++ digits ++ rest := by
  constructor
  · intro read
    by_cases stops : Stops (· == ',') text
    · rw [another_of_stops stops] at read
      obtain ⟨skipped, gaps, split⟩ := exists_skipped isGap text
      obtain ⟨numeral, ends, same⟩ := value_eq_some_iff.mp read
      exact ⟨skipped, ⟨skipped, gaps, .inl rfl⟩, numeral, ends,
        by rw [List.append_assoc, ← same, ← split]⟩
    · obtain ⟨after, rfl⟩ := exists_comma stops
      rw [another_comma] at read
      obtain ⟨skipped, gaps, split⟩ := exists_skipped isGap after
      obtain ⟨numeral, ends, same⟩ := value_eq_some_iff.mp read
      refine ⟨',' :: skipped, ⟨skipped, gaps, .inr rfl⟩, numeral, ends, ?_⟩
      rw [List.append_assoc, ← same, List.cons_append, ← split]
  · rintro ⟨lead, ⟨skipped, gaps, rfl | rfl⟩, numeral, ends, rfl⟩
    · rw [List.append_assoc, another_of_stops (gaps.stops_comma (numeral.stops_comma rest)),
        dropWhile_append gaps (numeral.stops_gap rest)]
      exact value_eq_some_iff.mpr ⟨numeral, ends, rfl⟩
    · rw [List.append_assoc, List.cons_append, another_comma,
        dropWhile_append gaps (numeral.stops_gap rest)]
      exact value_eq_some_iff.mpr ⟨numeral, ends, rfl⟩

theorem another_of_closed (closed : Closed text) : another text = none := by
  rw [Option.eq_none_iff_forall_ne_some]
  rintro ⟨digits, rest⟩ read
  obtain ⟨lead, ⟨gaps, isGaps, rfl | rfl⟩, numeral, _, rfl⟩ := another_eq_some_iff.mp read
  · rw [List.append_assoc] at closed
    cases lead with
    | nil => exact numeral.not_stops closed.stops_digits
    | cons c lead =>
      have gap := isGaps c List.mem_cons_self
      rw [(closed c rfl).1] at gap
      cases gap
  · exact (closed ',' rfl).2.2 rfl

theorem consumes_another : another.Consumes := by
  intro text digits rest read
  obtain ⟨lead, _, ⟨nonempty, _⟩, _, rfl⟩ := another_eq_some_iff.mp read
  have positive := List.length_pos_iff.mpr nonempty
  rw [List.length_append, List.length_append]
  omega

/-- What is read after a numeral is a list of further numerals. -/
theorem moreNumerals_further (stops : Stops Char.isDigit text) :
    ∃ more, MoreNumerals more (Parsing.further isGap another text).1 ∧
      text = more ++ (Parsing.further isGap another text).2 ∧
      Stops Char.isDigit (Parsing.further isGap another text).2 := by
  fun_induction Parsing.further isGap another text with
  | case1 text digits rest read shorter others last same ih =>
    obtain ⟨lead, leads, numeral, ends, behind⟩ := another_eq_some_iff.mp read
    obtain ⟨more, list, split, after⟩ := ih ends
    obtain ⟨skipped, gaps, whole⟩ := exists_skipped isGap text
    rw [same] at list split after
    rw [behind, split] at whole
    have separates : IsSeparation (skipped ++ lead) := by
      refine isSeparation_iff.mpr ⟨fun empty => ?_, skipped, lead, gaps, leads, rfl⟩
      rw [whole, List.append_assoc lead, ← List.append_assoc skipped, empty] at stops
      exact numeral.not_stops stops
    refine ⟨_, .cons separates numeral list, ?_, after⟩
    simp only [whole, List.append_assoc]
  | case2 text digits rest read shorter => exact ⟨[], .nil, rfl, stops⟩
  | case3 text failed => exact ⟨[], .nil, rfl, stops⟩

/-- A list of further numerals is read up to its end. -/
theorem further_another (list : MoreNumerals text numerals) (stops : Stops Char.isDigit rest)
    (failed : another (rest.dropWhile isGap) = none) :
    Parsing.further isGap another (text ++ rest) = (numerals, rest) := by
  induction list with
  | nil => exact Parsing.further_of_none failed
  | @cons separation digits text others separates numeral list ih =>
    have read : another ((separation ++ digits ++ text ++ rest).dropWhile isGap) =
        some (digits, text ++ rest) := by
      have ends := list.stops_digits stops
      obtain ⟨_, before, lead, left, ⟨after, right, rfl | rfl⟩, rfl⟩ := isSeparation_iff.mp separates
      · rw [List.append_assoc, List.append_assoc, dropWhile_append
          (List.forall_mem_append.mpr ⟨left, right⟩) (numeral.stops_gap _)]
        exact another_eq_some_iff.mpr ⟨[], ⟨[], nofun, .inl rfl⟩, numeral, ends, rfl⟩
      · have assoc : before ++ ',' :: after ++ digits ++ text ++ rest =
            before ++ (',' :: after ++ digits ++ (text ++ rest)) := by simp only [List.append_assoc]
        have comma : Stops isGap (',' :: after ++ digits ++ (text ++ rest)) := stops_cons.mpr rfl
        rw [assoc, dropWhile_append left comma]
        exact another_eq_some_iff.mpr ⟨_, ⟨after, right, .inr rfl⟩, numeral, ends, rfl⟩
    rw [Parsing.further_of_some consumes_another read, ih]

/-! ## Lists of numerals -/

theorem exists_list (text : List Char) : ∃ numerals rest, list text = some (numerals, rest) := by
  obtain ⟨numerals, rest, read⟩ := Parsing.exists_optional several text
  exact ⟨_, rest, Parsing.map_eq_some_iff.mpr ⟨numerals, read, rfl⟩⟩

theorem list_of_stops (stops : Stops Char.isDigit text) : list text = some ([], text) := by
  have failed : value text = none := Parsing.word_eq_none_iff.mpr stops
  have absent : several text = none := by
    rw [several, Parsing.map_eq_none_iff, Parsing.followedBy, failed]
    rfl
  exact Parsing.map_eq_some_iff.mpr ⟨none, Parsing.optional_of_none absent, rfl⟩

/-- After a numeral its list goes on with all further numerals, and perhaps with gaps. -/
theorem list_of_value (read : value text = some (digits, rest)) :
    ∃ skipped last, IsGaps skipped ∧ (Parsing.further isGap another rest).2 = skipped ++ last ∧
      list text = some (digits :: (Parsing.further isGap another rest).1, last) := by
  obtain ⟨skipped, last, gaps, split, repeated⟩ :=
    Parsing.repeated_dropWhile isGap consumes_another rest
  refine ⟨skipped, last, gaps, split, Parsing.map_eq_some_iff.mpr ⟨some _, ?_, rfl⟩⟩
  refine Parsing.optional_of_some (Parsing.map_eq_some_iff.mpr ⟨(digits, _), ?_, rfl⟩)
  exact Parsing.followedBy_eq_some_iff.mpr ⟨rest, read, repeated⟩

/-- What is read is a list of numerals with gaps around it. -/
theorem exists_padded_of_list (read : list (text.dropWhile isGap) = some (numerals, rest)) :
    ∃ padded, PaddedNumerals padded numerals ∧ text = padded ++ rest.dropWhile isGap := by
  obtain ⟨before, left, whole⟩ := exists_skipped isGap text
  obtain ⟨after, right, behind⟩ := exists_skipped isGap rest
  cases found : value (text.dropWhile isGap) with
  | none =>
    cases (list_of_stops (Parsing.word_eq_none_iff.mp found)).symm.trans read
    refine ⟨before ++ [] ++ after, ⟨before, [], after, left, .nil, right, rfl⟩, ?_⟩
    rw [List.append_nil, List.append_assoc, ← behind, ← whole]
  | some result =>
    obtain ⟨digits, later⟩ := result
    obtain ⟨numeral, stops, same⟩ := value_eq_some_iff.mp found
    obtain ⟨skipped, last, gaps, split, listed⟩ := list_of_value found
    obtain ⟨more, list, readMore, _⟩ := moreNumerals_further stops
    cases listed.symm.trans read
    have listing := numerals_cons_iff.mpr ⟨more, numeral, list, rfl⟩
    have blank := List.forall_mem_append.mpr ⟨gaps, right⟩
    refine ⟨before ++ (digits ++ more) ++ (skipped ++ after),
      ⟨before, _, _, left, listing, blank, rfl⟩, ?_⟩
    rw [split, behind] at readMore
    rw [whole, same, readMore]
    simp only [List.append_assoc]

/-- A list of numerals with gaps around it is read as a whole, up to its last gaps. -/
theorem list_of_padded (padding : PaddedNumerals padded numerals) (closed : Closed rest) :
    ∃ last, list ((padded ++ rest).dropWhile isGap) = some (numerals, last) ∧
      last.dropWhile isGap = rest := by
  obtain ⟨before, inner, after, left, list, right, rfl⟩ := padding
  cases numerals with
  | nil =>
    obtain rfl := numerals_nil_iff.mp list
    have skipped : (before ++ [] ++ after ++ rest).dropWhile isGap = rest := by
      rw [List.append_nil]
      exact dropWhile_append (List.forall_mem_append.mpr ⟨left, right⟩) closed.stops_gap
    rw [skipped]
    exact ⟨rest, list_of_stops closed.stops_digits, closed.stops_gap.dropWhile_eq⟩
  | cons digits numerals =>
    obtain ⟨more, numeral, later, rfl⟩ := numerals_cons_iff.mp list
    have skipped : (before ++ (digits ++ more) ++ after ++ rest).dropWhile isGap =
        digits ++ (more ++ (after ++ rest)) := by
      have assoc : before ++ (digits ++ more) ++ after ++ rest =
          before ++ (digits ++ (more ++ (after ++ rest))) := by simp only [List.append_assoc]
      rw [assoc, dropWhile_append left (numeral.stops_gap _)]
    have stops := right.stops_digits closed.stops_digits
    have behind : (after ++ rest).dropWhile isGap = rest := dropWhile_append right closed.stops_gap
    have failed : another ((after ++ rest).dropWhile isGap) = none := by
      rw [behind]
      exact another_of_closed closed
    have read : value (digits ++ (more ++ (after ++ rest))) = some (digits, more ++ (after ++ rest)) :=
      value_eq_some_iff.mpr ⟨numeral, later.stops_digits stops, rfl⟩
    obtain ⟨kept, last, gaps, split, listed⟩ := list_of_value read
    rw [further_another later stops failed] at split listed
    rw [skipped]
    refine ⟨last, listed, ?_⟩
    rw [← List.dropWhile_append_of_pos gaps, ← split, behind]

/-! ## Don't-care terms -/

/-- The rule for the opening mark, character by character. -/
theorem opening_eq_some_iff_chars : opening text = some ((), rest) ↔ ∃ letter second third,
    (letter = 'd' ∨ letter = 'D') ∧ text = '+' :: second ∧
      second.dropWhile isGap = letter :: third ∧ third.dropWhile isGap = '(' :: rest := by
  rw [opening, Parsing.map_eq_some_iff]
  constructor
  · rintro ⟨⟨⟨plus, letter⟩, paren⟩, read, _⟩
    obtain ⟨third, front, last⟩ := Parsing.followedBy_eq_some_iff.mp read
    obtain ⟨second, begun, middle⟩ := Parsing.followedBy_eq_some_iff.mp front
    obtain ⟨isPlus, rfl⟩ := Parsing.char_eq_some_iff.mp begun
    obtain ⟨isLetter, before⟩ := Parsing.char_eq_some_iff.mp middle
    obtain ⟨isParen, between⟩ := Parsing.char_eq_some_iff.mp last
    obtain rfl := beq_iff_eq.mp isPlus
    obtain rfl := beq_iff_eq.mp isParen
    exact ⟨letter, second, third, by simpa using isLetter, rfl, before, between⟩
  · rintro ⟨letter, second, third, isLetter, rfl, before, between⟩
    refine ⟨(('+', letter), '('), Parsing.followedBy_eq_some_iff.mpr ⟨third,
      Parsing.followedBy_eq_some_iff.mpr ⟨second, ?_, ?_⟩, ?_⟩, rfl⟩
    · exact Parsing.char_eq_some_iff.mpr ⟨rfl, rfl⟩
    · exact Parsing.char_eq_some_iff.mpr ⟨by simpa using isLetter, before⟩
    · exact Parsing.char_eq_some_iff.mpr ⟨rfl, between⟩

theorem opening_eq_some_iff : opening text = some ((), rest) ↔
    ∃ mark, IsOpening mark ∧ text = mark ++ rest := by
  rw [opening_eq_some_iff_chars]
  constructor
  · rintro ⟨letter, second, third, isLetter, rfl, before, between⟩
    obtain ⟨first, left, splitFirst⟩ := exists_skipped isGap second
    obtain ⟨next, right, splitNext⟩ := exists_skipped isGap third
    refine ⟨_, ⟨first, next, letter, left, right, isLetter, rfl⟩, ?_⟩
    rw [splitFirst, before, splitNext, between]
    simp only [List.cons_append, List.append_assoc, List.nil_append]
  · rintro ⟨_, ⟨first, next, letter, left, right, isLetter, rfl⟩, rfl⟩
    have stops : Stops isGap (letter :: next ++ '(' :: rest) := by
      obtain rfl | rfl := isLetter <;> exact stops_cons.mpr rfl
    refine ⟨letter, first ++ (letter :: next ++ '(' :: rest), next ++ '(' :: rest, isLetter, ?_,
      dropWhile_append left stops, dropWhile_append right (stops_cons.mpr rfl)⟩
    simp only [List.cons_append, List.append_assoc, List.nil_append]

/-- The rule for don't-care terms, part by part. -/
theorem dontcares_eq_some_iff_list : dontcares text = some (others, rest) ↔ ∃ inner last,
    opening text = some ((), inner) ∧ list (inner.dropWhile isGap) = some (others, last) ∧
      last.dropWhile isGap = ')' :: rest := by
  rw [dontcares, Parsing.map_eq_some_iff]
  constructor
  · rintro ⟨⟨⟨_, numerals⟩, paren⟩, read, rfl⟩
    obtain ⟨last, front, closes⟩ := Parsing.followedBy_eq_some_iff.mp read
    obtain ⟨inner, opened, listed⟩ := Parsing.followedBy_eq_some_iff.mp front
    obtain ⟨isParen, behind⟩ := Parsing.char_eq_some_iff.mp closes
    obtain rfl := beq_iff_eq.mp isParen
    exact ⟨inner, last, opened, listed, behind⟩
  · rintro ⟨inner, last, opened, listed, behind⟩
    refine ⟨(((), others), ')'), Parsing.followedBy_eq_some_iff.mpr ⟨last,
      Parsing.followedBy_eq_some_iff.mpr ⟨inner, opened, listed⟩, ?_⟩, rfl⟩
    exact Parsing.char_eq_some_iff.mpr ⟨rfl, behind⟩

theorem dontcares_eq_some_iff : dontcares text = some (others, rest) ↔ ∃ mark inner,
    IsOpening mark ∧ PaddedNumerals inner others ∧ text = mark ++ inner ++ ')' :: rest := by
  rw [dontcares_eq_some_iff_list]
  constructor
  · rintro ⟨inside, last, opened, listed, behind⟩
    obtain ⟨mark, opens, rfl⟩ := opening_eq_some_iff.mp opened
    obtain ⟨inner, padding, rfl⟩ := exists_padded_of_list listed
    exact ⟨mark, inner, opens, padding, by rw [behind, List.append_assoc]⟩
  · rintro ⟨mark, inner, opens, padding, rfl⟩
    have closed : Closed (')' :: rest) := by simp [Closed, isGap]
    obtain ⟨last, listed, behind⟩ := list_of_padded padding closed
    exact ⟨_, last, opening_eq_some_iff.mpr ⟨mark, opens, List.append_assoc ..⟩, listed, behind⟩

/-! ## Whole lists -/

/-- What may follow the minterms: nothing, or the don't-care terms and the end. -/
def Completes (others : List (List Char)) (text : List Char) : Prop :=
  text = [] ∧ others = [] ∨ ∃ after, dontcares text = some (others, after) ∧ IsGaps after

/-- The rule for lists of terms, part by part. -/
theorem terms_eq_some_iff_list : terms text = some ((minterms, others), rest) ↔ rest = [] ∧
    ∃ middle, list (text.dropWhile isGap) = some (minterms, middle) ∧
      Completes others (middle.dropWhile isGap) := by
  rw [terms, Parsing.map_eq_some_iff]
  constructor
  · rintro ⟨⟨⟨minterms, group⟩, _⟩, read, same⟩
    cases same
    obtain ⟨last, front, ends⟩ := Parsing.followedBy_eq_some_iff.mp read
    obtain ⟨middle, listed, grouped⟩ := Parsing.followedBy_eq_some_iff.mp front
    obtain ⟨behind, rfl⟩ := Parsing.ending_eq_some_iff.mp ends
    refine ⟨rfl, middle, listed, ?_⟩
    cases found : dontcares (middle.dropWhile isGap) with
    | none =>
      cases (Parsing.optional_of_none found).symm.trans grouped
      rw [List.dropWhile_idempotent] at behind
      exact .inl ⟨behind, rfl⟩
    | some result =>
      obtain ⟨others, after⟩ := result
      cases (Parsing.optional_of_some found).symm.trans grouped
      exact .inr ⟨last, found, List.dropWhile_eq_nil_iff.mp behind⟩
  · rintro ⟨rfl, middle, listed, ⟨behind, rfl⟩ | ⟨after, found, gaps⟩⟩
    · refine ⟨((minterms, none), ()), Parsing.followedBy_eq_some_iff.mpr ⟨[],
        Parsing.followedBy_eq_some_iff.mpr ⟨middle, listed, ?_⟩, rfl⟩, rfl⟩
      rw [behind]
      rfl
    · refine ⟨((minterms, some others), ()), Parsing.followedBy_eq_some_iff.mpr ⟨after,
        Parsing.followedBy_eq_some_iff.mpr ⟨middle, listed, Parsing.optional_of_some found⟩, ?_⟩, rfl⟩
      rw [List.dropWhile_eq_nil_iff.mpr gaps]
      rfl

/-- The rules read a text just if it is a list of terms, with its numerals, and then they read all of
it. -/
theorem terms_eq_some_iff : terms text = some ((minterms, others), rest) ↔
    Written text minterms others ∧ rest = [] := by
  rw [terms_eq_some_iff_list, and_comm]
  refine and_congr_left fun _ => ?_
  constructor
  · rintro ⟨middle, listed, found⟩
    obtain ⟨padded, padding, rfl⟩ := exists_padded_of_list listed
    obtain ⟨behind, rfl⟩ | ⟨after, found, gaps⟩ := found
    · rw [behind, List.append_nil]
      exact .minterms padding
    · obtain ⟨mark, inner, opens, wraps, split⟩ := dontcares_eq_some_iff.mp found
      rw [split, ← List.append_assoc, ← List.append_assoc]
      exact .dontcares padding opens wraps gaps
  · intro written
    cases written with
    | minterms padding =>
      have closed : Closed [] := nofun
      obtain ⟨middle, listed, behind⟩ := list_of_padded padding closed
      rw [List.append_nil] at listed
      exact ⟨middle, listed, .inl ⟨behind, rfl⟩⟩
    | @dontcares padded mark inner after _ _ padding opens wraps gaps =>
      have closed : Closed (mark ++ inner ++ ')' :: after) := by
        obtain ⟨first, second, letter, _, _, _, rfl⟩ := opens
        simp [Closed, isGap]
      obtain ⟨middle, listed, behind⟩ := list_of_padded padding closed
      rw [← List.append_assoc, ← List.append_assoc] at listed
      refine ⟨middle, listed, .inr ⟨after, ?_, gaps⟩⟩
      rw [behind]
      exact dontcares_eq_some_iff.mpr ⟨mark, inner, opens, wraps, rfl⟩

end Rule

end Switching.TermList
