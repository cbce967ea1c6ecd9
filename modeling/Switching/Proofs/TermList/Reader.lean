import Switching.Proofs.Outcome
import Switching.Proofs.TermList.Refusal

/-! # Reading lists of terms by their rules

The reader goes from one part of a text to the next, and gives up at a comma without a numeral after
it, while the rules go over the characters and leave such a comma for what follows. Nothing can follow
that begins with a comma: the reader finds the numerals that the rules find (`numeralsOf_of_terms`), and
where they are stuck it names the column and what is missing there (`numeralsOf_of_stuck`).
-/

namespace Switching.TermList

open Text

variable {text rest digits : List Char} {c : Char} {column ending start next : Nat}
variable {parts : List Placed}

/-! ## The parts of a text -/

theorem consDigit_of_ne (apart : ∀ digits rest, parts ≠ ⟨column + 1, .numeral digits⟩ :: rest) :
    consDigit column c parts = ⟨column, .numeral [c]⟩ :: parts := by
  unfold consDigit
  split
  · next next digits rest =>
    split
    · next same => exact absurd (same ▸ rfl) (apart digits rest)
    · rfl
  · rfl

theorem le_column_consDigit {low : Nat} {part : Placed} (below : low ≤ column)
    (later : ∀ part ∈ parts, low ≤ part.column) (member : part ∈ consDigit column c parts) :
    low ≤ part.column := by
  unfold consDigit at member
  split at member
  · next next digits rest =>
    have behind : ∀ part ∈ rest, low ≤ part.column := fun part member =>
      later part (List.mem_cons_of_mem _ member)
    split at member
    · obtain rfl | member := List.mem_cons.mp member
      · exact below
      · exact behind part member
    · obtain rfl | member := List.mem_cons.mp member
      · exact below
      · exact later part member
  · obtain rfl | member := List.mem_cons.mp member
    · exact below
    · exact later part member

theorem le_column {part : Placed} (member : part ∈ lexemes column text) : column ≤ part.column := by
  induction text generalizing column part with
  | nil => cases member
  | cons c text ih =>
    have later : ∀ part ∈ lexemes (column + 1) text, column ≤ part.column := fun part member =>
      (Nat.le_succ column).trans (ih member)
    unfold lexemes at member
    split at member
    · exact later part member
    · split at member
      · exact le_column_consDigit (Nat.le_refl column) later member
      · obtain rfl | member := List.mem_cons.mp member
        · exact Nat.le_refl _
        · exact later part member

theorem lexemes_gap (gap : isGap c = true) : lexemes column (c :: rest) = lexemes (column + 1) rest :=
  if_pos gap

theorem lexemes_mark (gap : isGap c = false) (digit : c.isDigit = false) :
    lexemes column (c :: rest) = ⟨column, .mark c⟩ :: lexemes (column + 1) rest := by
  simp [lexemes, gap, digit]

theorem lexemes_digit (digit : c.isDigit = true) :
    lexemes column (c :: rest) = consDigit column c (lexemes (column + 1) rest) := by
  simp [lexemes, isGap_of_isDigit digit, digit]

/-- A text that does not begin with a digit has no numeral in its first column. -/
theorem lexemes_ne_numeral (stops : Stops Char.isDigit text) (digits : List Char)
    (rest : List Placed) : lexemes column text ≠ ⟨column, .numeral digits⟩ :: rest := by
  intro same
  cases text with
  | nil => cases same
  | cons c text =>
    cases gap : isGap c with
    | true =>
      have first : ⟨column, .numeral digits⟩ ∈ lexemes (column + 1) text := by
        rw [← lexemes_gap gap, same]
        exact List.mem_cons_self
      exact Nat.not_succ_le_self column (le_column first)
    | false =>
      rw [lexemes_mark gap (stops_cons.mp stops)] at same
      cases same

theorem lexemes_numeral (numeral : IsNumeral digits) (stops : Stops Char.isDigit rest) :
    lexemes column (digits ++ rest) =
      ⟨column, .numeral digits⟩ :: lexemes (column + digits.length) rest := by
  obtain ⟨nonempty, all⟩ := numeral
  induction digits generalizing column with
  | nil => exact absurd rfl nonempty
  | cons c digits ih =>
    have digit := all c List.mem_cons_self
    rw [List.cons_append, lexemes_digit digit]
    cases digits with
    | nil => exact consDigit_of_ne (lexemes_ne_numeral stops)
    | cons d digits =>
      rw [ih (List.cons_ne_nil d digits) fun d member => all d (List.mem_cons_of_mem c member)]
      have length : column + 1 + (d :: digits).length = column + (c :: d :: digits).length := by
        simp only [List.length_cons]
        omega
      rw [consDigit, if_pos rfl, length]

/-- Gaps make no difference but that of the columns. -/
theorem lexemes_gaps {gaps : List Char} (isGaps : IsGaps gaps) (column : Nat) (text : List Char) :
    lexemes column (gaps ++ text) = lexemes (column + gaps.length) text := by
  induction gaps generalizing column with
  | nil => rfl
  | cons c gaps ih =>
    rw [List.cons_append, lexemes_gap (isGaps c List.mem_cons_self),
      ih fun d member => isGaps d (List.mem_cons_of_mem c member), List.length_cons]
    congr 1
    omega

theorem exists_lexemes_dropWhile (column : Nat) (text : List Char) :
    ∃ start, start + (text.dropWhile isGap).length = column + text.length ∧
      lexemes column text = lexemes start (text.dropWhile isGap) := by
  obtain ⟨skipped, gaps, split⟩ := exists_skipped isGap text
  refine ⟨column + skipped.length, ?_, ?_⟩
  · rw [Nat.add_assoc, ← List.length_append, ← split]
  · rw [← lexemes_gaps gaps, ← split]

theorem exists_lexemes_of_value (column : Nat)
    (read : Rule.value (text.dropWhile isGap) = some (digits, rest)) :
    ∃ start next, next + rest.length = column + text.length ∧
      lexemes column text = ⟨start, .numeral digits⟩ :: lexemes next rest := by
  obtain ⟨start, place, same⟩ := exists_lexemes_dropWhile column text
  obtain ⟨numeral, stops, split⟩ := Rule.value_eq_some_iff.mp read
  rw [split] at place same
  refine ⟨start, start + digits.length, ?_, same.trans (lexemes_numeral numeral stops)⟩
  rw [← place, List.length_append, Nat.add_assoc]

theorem exists_lexemes_of_mark (column : Nat) (split : text.dropWhile isGap = c :: rest)
    (digit : c.isDigit = false) :
    ∃ start next, next + rest.length = column + text.length ∧
      lexemes column text = ⟨start, .mark c⟩ :: lexemes next rest := by
  obtain ⟨start, place, skipped⟩ := exists_lexemes_dropWhile column text
  have gaps := stops_dropWhile isGap text
  rw [split] at gaps place skipped
  rw [lexemes_mark (stops_cons.mp gaps) digit] at skipped
  rw [List.length_cons] at place
  exact ⟨start, start + 1, by omega, skipped⟩

theorem exists_consDigit (column : Nat) (c : Char) (parts : List Placed) :
    ∃ digits rest, consDigit column c parts = ⟨column, .numeral digits⟩ :: rest := by
  unfold consDigit
  split
  · split <;> exact ⟨_, _, rfl⟩
  · exact ⟨_, _, rfl⟩

theorem columnOf_lexemes_cons (gap : isGap c = false) :
    columnOf ending (lexemes column (c :: rest)) = column := by
  cases digit : c.isDigit with
  | true =>
    obtain ⟨digits, parts, same⟩ := exists_consDigit column c (lexemes (column + 1) rest)
    rw [lexemes_digit digit, same]
    rfl
  | false =>
    rw [lexemes_mark gap digit]
    rfl

/-- The first part of a text begins behind its gaps. -/
theorem columnOf_lexemes (place : column + text.length = ending) :
    columnOf ending (lexemes column text) + (text.dropWhile isGap).length = ending := by
  obtain ⟨start, begins, same⟩ := exists_lexemes_dropWhile column text
  have gaps := stops_dropWhile isGap text
  rw [same, ← place, ← begins]
  generalize text.dropWhile isGap = rest at gaps
  cases rest with
  | nil => rfl
  | cons c rest => rw [columnOf_lexemes_cons (stops_cons.mp gaps)]

/-- What a text goes on with after its gaps. -/
inductive Ahead (column : Nat) (text : List Char) : Prop where
  | ending : text.dropWhile isGap = [] → lexemes column text = [] → Ahead column text
  | numeral {digits rest : List Char} {start next : Nat} :
      Rule.value (text.dropWhile isGap) = some (digits, rest) →
      lexemes column text = ⟨start, .numeral digits⟩ :: lexemes next rest → Ahead column text
  | mark {c : Char} {rest : List Char} {start next : Nat} :
      text.dropWhile isGap = c :: rest → Rule.value (text.dropWhile isGap) = none →
      next + rest.length = column + text.length →
      lexemes column text = ⟨start, .mark c⟩ :: lexemes next rest → Ahead column text

theorem ahead (column : Nat) (text : List Char) : Ahead column text := by
  cases read : Rule.value (text.dropWhile isGap) with
  | some found =>
    obtain ⟨start, next, -, parts⟩ := exists_lexemes_of_value column read
    exact .numeral read parts
  | none =>
    cases split : text.dropWhile isGap with
    | nil =>
      obtain ⟨start, -, skipped⟩ := exists_lexemes_dropWhile column text
      exact .ending split (skipped.trans (split ▸ rfl))
    | cons c rest =>
      have digit := stops_cons.mp (split ▸ Parsing.word_eq_none_iff.mp read)
      obtain ⟨start, next, place, parts⟩ := exists_lexemes_of_mark column split digit
      exact .mark split read place parts

theorem lexemes_ne_of_value (failed : Rule.value (text.dropWhile isGap) = none) (start : Nat)
    (digits : List Char) (parts : List Placed) :
    lexemes column text ≠ ⟨start, .numeral digits⟩ :: parts := by
  intro same
  cases ahead column text with
  | ending _ empty => cases empty.symm.trans same
  | numeral read _ => cases read.symm.trans failed
  | mark _ _ _ mark => cases mark.symm.trans same

theorem exists_of_lexemes_mark (same : lexemes column text = ⟨start, .mark c⟩ :: parts) :
    ∃ rest next, text.dropWhile isGap = c :: rest ∧ next + rest.length = column + text.length ∧
      parts = lexemes next rest := by
  cases ahead column text with
  | ending _ empty => cases empty.symm.trans same
  | numeral _ numeral => cases numeral.symm.trans same
  | mark split _ place mark =>
    cases mark.symm.trans same
    exact ⟨_, _, split, place, rfl⟩

theorem lexemes_eq_nil_iff : lexemes column text = [] ↔ IsGaps text := by
  constructor
  · intro empty
    cases ahead column text with
    | ending split _ => exact List.dropWhile_eq_nil_iff.mp split
    | numeral _ numeral => cases numeral.symm.trans empty
    | mark _ _ _ mark => cases mark.symm.trans empty
  · intro gaps
    rw [← List.append_nil text, lexemes_gaps gaps]
    rfl

theorem exists_lexemes_of_another (column : Nat)
    (read : Rule.another (text.dropWhile isGap) = some (digits, rest)) :
    ∃ first next, next + rest.length = column + text.length ∧
      (lexemes column text = ⟨first, .numeral digits⟩ :: lexemes next rest ∨ ∃ comma,
        lexemes column text = ⟨comma, .mark ','⟩ :: ⟨first, .numeral digits⟩ :: lexemes next rest) := by
  by_cases stops : Stops (· == ',') (text.dropWhile isGap)
  · rw [Rule.another_of_stops stops, List.dropWhile_idempotent] at read
    obtain ⟨first, next, place, parts⟩ := exists_lexemes_of_value column read
    exact ⟨first, next, place, .inl parts⟩
  · obtain ⟨after, split⟩ := exists_comma stops
    rw [split, Rule.another_comma] at read
    obtain ⟨comma, later, front, mark⟩ := exists_lexemes_of_mark column split rfl
    obtain ⟨first, next, place, parts⟩ := exists_lexemes_of_value later read
    exact ⟨first, next, place.trans front, .inr ⟨comma, mark.trans (parts ▸ rfl)⟩⟩

/-! ## Numerals -/

/-- The outcome of reading numerals when the rules read them and leave `rest`. -/
inductive Scans (ending : Nat) (numerals : List (List Char)) (rest : List Char) :
    Except Fault Scanned → Prop where
  | done {next : Nat} : Rule.lack numerals rest = rest.dropWhile isGap →
      next + (rest.dropWhile isGap).length = ending →
      Scans ending numerals rest (.ok (numerals, lexemes next (rest.dropWhile isGap)))
  /-- No numeral follows a comma. -/
  | comma {stop : Nat} : Rule.lack numerals rest ≠ rest.dropWhile isGap →
      stop + (Rule.lack numerals rest).length = ending →
      Scans ending numerals rest (.error (.malformedTerms stop [.value]))

variable {numerals : List (List Char)} {first : List Char} {outcome : Except Fault Scanned}

theorem Scans.cons (scans : Scans ending (first :: numerals) rest outcome) (digits : List Char) :
    Scans ending (digits :: first :: numerals) rest
      (outcome.map fun (numerals, rest) => (digits :: numerals, rest)) := by
  have same : Rule.lack (digits :: first :: numerals) rest = Rule.lack (first :: numerals) rest :=
    Rule.lack_cons.trans Rule.lack_cons.symm
  cases scans with
  | done lacks place => exact .done (same.trans lacks) place
  | comma lacks place => exact .comma (same ▸ lacks) (same ▸ place)

theorem Scans.of_gaps {gaps : List Char} (scans : Scans ending numerals (gaps ++ rest) outcome)
    (isGaps : IsGaps gaps) : Scans ending numerals rest outcome := by
  have same := @List.dropWhile_append_of_pos _ isGap gaps rest isGaps
  cases scans with
  | done lacks place =>
    rw [Rule.lack_gaps isGaps, same] at lacks
    rw [same] at place ⊢
    exact .done lacks place
  | comma lacks place =>
    rw [Rule.lack_gaps isGaps] at lacks place
    exact .comma (same ▸ lacks) place

theorem readMore_comma (apart : ∀ first digits rest, parts ≠ ⟨first, .numeral digits⟩ :: rest) :
    readMore ending (⟨start, .mark ','⟩ :: parts) =
      .error (.malformedTerms (columnOf ending parts) [.value]) :=
  readMore.eq_3 ending start parts apart

theorem readMore_other (numerals : ∀ first digits rest, parts ≠ ⟨first, .numeral digits⟩ :: rest)
    (commas : ∀ first rest, parts ≠ ⟨first, .mark ','⟩ :: rest) :
    readMore ending parts = .ok ([], parts) :=
  readMore.eq_4 ending parts numerals (fun first _ _ _ => commas first _) commas

theorem readNumerals_other (apart : ∀ first digits rest, parts ≠ ⟨first, .numeral digits⟩ :: rest) :
    readNumerals ending parts = .ok ([], parts) :=
  readNumerals.eq_2 ending parts apart

theorem scans_of_another (failed : Rule.another (text.dropWhile isGap) = none)
    (place : column + text.length = ending) (digits : List Char) :
    Scans ending [digits] text
      ((readMore ending (lexemes column text)).map fun (numerals, rest) =>
        (digits :: numerals, rest)) := by
  by_cases stops : Stops (· == ',') (text.dropWhile isGap)
  · rw [Rule.another_of_stops stops, List.dropWhile_idempotent] at failed
    have commas : ∀ first parts, lexemes column text ≠ ⟨first, .mark ','⟩ :: parts := by
      intro first parts same
      obtain ⟨after, -, split, -⟩ := exists_of_lexemes_mark same
      rw [split] at stops
      cases stops_cons.mp stops
    obtain ⟨start, begins, skipped⟩ := exists_lexemes_dropWhile column text
    rw [readMore_other (lexemes_ne_of_value failed) commas, skipped]
    exact .done (Rule.lack_eq stops _) (begins.trans place)
  · obtain ⟨after, split⟩ := exists_comma stops
    rw [split, Rule.another_comma] at failed
    obtain ⟨comma, next, begins, mark⟩ := exists_lexemes_of_mark column split rfl
    rw [mark, readMore_comma (lexemes_ne_of_value failed)]
    refine .comma (Rule.lack_ne_of_comma split) ?_
    rw [Rule.lack_eq_of_comma split]
    exact columnOf_lexemes (begins.trans place)

theorem scans_readMore (place : column + text.length = ending) (digits : List Char) :
    Scans ending (digits :: (Parsing.further isGap Rule.another text).1)
      (Parsing.further isGap Rule.another text).2
      ((readMore ending (lexemes column text)).map fun (numerals, rest) =>
        (digits :: numerals, rest)) := by
  fun_induction Parsing.further isGap Rule.another text generalizing column digits with
  | case1 text next rest read shorter others last same ih =>
    obtain ⟨first, behind, begins, parts⟩ := exists_lexemes_of_another column read
    have scans := (ih (begins.trans place) next).cons digits
    rw [same] at scans
    -- With a comma or without, the reader goes on in the same way.
    obtain parts | ⟨comma, parts⟩ := parts
    · rw [parts, readMore]
      exact scans
    · rw [parts, readMore]
      exact scans
  | case2 text next rest read shorter =>
    exact absurd ((Rule.consumes_another _ _ _ read).trans_le (List.length_dropWhile_le ..)) shorter
  | case3 text failed => exact scans_of_another failed place digits

/-- What the reader does with the numerals of a list, as the rules read them. -/
theorem scans_readNumerals (listed : Rule.list (text.dropWhile isGap) = some (numerals, rest))
    (place : column + text.length = ending) :
    Scans ending numerals rest (readNumerals ending (lexemes column text)) := by
  cases read : Rule.value (text.dropWhile isGap) with
  | none =>
    cases (Rule.list_of_stops (Parsing.word_eq_none_iff.mp read)).symm.trans listed
    obtain ⟨start, begins, skipped⟩ := exists_lexemes_dropWhile column text
    have done : Scans ending [] (text.dropWhile isGap)
        (.ok ([], lexemes start ((text.dropWhile isGap).dropWhile isGap))) :=
      .done Rule.lack_nil (by rw [List.dropWhile_idempotent]; exact begins.trans place)
    rw [List.dropWhile_idempotent] at done
    rw [readNumerals_other (lexemes_ne_of_value read), skipped]
    exact done
  | some found =>
    obtain ⟨digits, later⟩ := found
    obtain ⟨gaps, last, isGaps, split, same⟩ := Rule.list_of_value read
    cases same.symm.trans listed
    obtain ⟨first, next, begins, parts⟩ := exists_lexemes_of_value column read
    have scans := scans_readMore (begins.trans place) digits
    rw [split] at scans
    rw [parts, readNumerals]
    exact scans.of_gaps isGaps

/-! ## Don't-care terms -/

theorem afterOpening?_eq_some_iff {inner : List Placed} : afterOpening? parts = some inner ↔
    ∃ letter first second third, (letter = 'd' ∨ letter = 'D') ∧
      parts = ⟨first, .mark '+'⟩ :: ⟨second, .mark letter⟩ :: ⟨third, .mark '('⟩ :: inner := by
  constructor
  · intro opened
    unfold afterOpening? at opened
    split at opened
    · next first second third rest =>
      cases opened
      exact ⟨'d', first, second, third, .inl rfl, rfl⟩
    · next first second third rest =>
      cases opened
      exact ⟨'D', first, second, third, .inr rfl, rfl⟩
    · cases opened
  · rintro ⟨letter, first, second, third, rfl | rfl, rfl⟩ <;> rfl

theorem exists_afterOpening? (column : Nat)
    (opened : Rule.opening (text.dropWhile isGap) = some ((), rest)) :
    ∃ next, next + rest.length = column + text.length ∧
      afterOpening? (lexemes column text) = some (lexemes next rest) := by
  obtain ⟨letter, second, third, isLetter, first, before, between⟩ :=
    Rule.opening_eq_some_iff_chars.mp opened
  have digit : letter.isDigit = false := by obtain rfl | rfl := isLetter <;> rfl
  obtain ⟨plus, next, placeFirst, marks⟩ := exists_lexemes_of_mark column first rfl
  obtain ⟨sign, later, placeSecond, more⟩ := exists_lexemes_of_mark next before digit
  obtain ⟨paren, last, placeThird, rest⟩ := exists_lexemes_of_mark later between rfl
  refine ⟨last, by omega, ?_⟩
  rw [marks, more, rest]
  exact afterOpening?_eq_some_iff.mpr ⟨letter, plus, sign, paren, isLetter, rfl⟩

theorem afterOpening?_of_none (failed : Rule.opening (text.dropWhile isGap) = none) :
    afterOpening? (lexemes column text) = none := by
  rw [Option.eq_none_iff_forall_ne_some]
  intro inner opened
  obtain ⟨letter, first, second, third, isLetter, same⟩ := afterOpening?_eq_some_iff.mp opened
  obtain ⟨_, _, plus, -, behind⟩ := exists_of_lexemes_mark same
  obtain ⟨_, _, before, -, behind⟩ := exists_of_lexemes_mark behind.symm
  obtain ⟨_, _, between, -, -⟩ := exists_of_lexemes_mark behind.symm
  have read := Rule.opening_eq_some_iff_chars.mpr ⟨letter, _, _, isLetter, plus, before, between⟩
  cases failed.symm.trans read

theorem exists_readNumerals_of_closed {after : List Char}
    (listed : Rule.list (text.dropWhile isGap) = some (numerals, rest))
    (closes : rest.dropWhile isGap = ')' :: after) (place : column + text.length = ending) :
    ∃ start next, next + after.length = ending ∧ readNumerals ending (lexemes column text) =
      .ok (numerals, ⟨start, .mark ')'⟩ :: lexemes next after) := by
  have scans := scans_readNumerals listed place
  generalize readNumerals ending (lexemes column text) = outcome at scans ⊢
  cases scans with
  | @done start _ begins =>
    rw [closes, List.length_cons] at begins
    rw [closes, lexemes_mark rfl rfl]
    exact ⟨start, start + 1, by omega, rfl⟩
  | comma lacks _ => exact absurd (Rule.lack_eq (closes ▸ stops_cons.mpr rfl) _) lacks

theorem readDontcares_of_list {after : List Char}
    (listed : Rule.list (text.dropWhile isGap) = some (numerals, rest))
    (closes : rest.dropWhile isGap = ')' :: after) (gaps : IsGaps after)
    (place : column + text.length = ending) :
    readDontcares ending (lexemes column text) = .ok numerals := by
  obtain ⟨start, next, -, scanned⟩ := exists_readNumerals_of_closed listed closes place
  rw [readDontcares, scanned, lexemes_eq_nil_iff.mpr gaps]
  rfl

theorem readDontcares_of_unfinished {after : List Char}
    (listed : Rule.list (text.dropWhile isGap) = some (numerals, rest))
    (closes : rest.dropWhile isGap = ')' :: after) (goes : after.dropWhile isGap ≠ [])
    (place : column + text.length = ending) : ∃ stop, stop + (after.dropWhile isGap).length = ending ∧
      readDontcares ending (lexemes column text) = .error (.malformedTerms stop [.ending]) := by
  obtain ⟨start, next, begins, scanned⟩ := exists_readNumerals_of_closed listed closes place
  have some : lexemes next after ≠ [] := fun none =>
    goes (List.dropWhile_eq_nil_iff.mpr (lexemes_eq_nil_iff.mp none))
  obtain ⟨part, parts, same⟩ := List.exists_cons_of_ne_nil some
  refine ⟨_, columnOf_lexemes begins, ?_⟩
  rw [readDontcares, scanned, same]
  rfl

theorem readDontcares_of_unclosed
    (listed : Rule.list (text.dropWhile isGap) = some (numerals, rest))
    (unclosed : ∀ after, rest.dropWhile isGap ≠ ')' :: after)
    (place : column + text.length = ending) : ∃ stop, stop + (Rule.lack numerals rest).length = ending ∧
      readDontcares ending (lexemes column text) = .error (.malformedTerms stop [.value]) := by
  have scans := scans_readNumerals listed place
  rw [readDontcares]
  generalize readNumerals ending (lexemes column text) = outcome at scans ⊢
  cases scans with
  | comma _ begins => exact ⟨_, begins, rfl⟩
  | @done next lacks begins =>
    have other : ∀ start parts, lexemes next (rest.dropWhile isGap) ≠ ⟨start, .mark ')'⟩ :: parts := by
      intro start parts same
      obtain ⟨after, -, split, -⟩ := exists_of_lexemes_mark same
      rw [List.dropWhile_idempotent] at split
      exact unclosed after split
    have column := columnOf_lexemes begins
    rw [List.dropWhile_idempotent] at column
    rw [lacks]
    refine ⟨_, column, ?_⟩
    simp only [bind, Except.bind]
    split
    · next same => exact absurd (Prod.mk.inj same).2 (other _ _)
    · next same => exact absurd (Prod.mk.inj same).2 (other _ _)
    · next same =>
      cases same
      rfl

/-! ## Whole texts -/

theorem Refused.bind {α β : Type} {outcome : Except Fault α} (refused : Refused outcome)
    (f : α → Except Fault β) : Refused (outcome >>= f) := by
  obtain ⟨column, expected, rfl⟩ := refused
  exact ⟨column, expected, rfl⟩

/-- The numerals of a text, of its minterms and of its don't-care terms. -/
def numeralsOf (text : String) : Except Fault (List (List Char) × List (List Char)) := do
  let ending := text.toList.length + 1
  let (minterms, rest) ← readNumerals ending (lexemes 1 text.toList)
  return (minterms, ← readRest ending rest)

/-- A list of terms is read by first finding its numerals. -/
theorem ofString_eq (text : String) : ofString text = do
    let (minterms, dontcares) ← numeralsOf text
    return ⟨← readIndices minterms, ← readIndices dontcares⟩ := by
  rw [ofString, numeralsOf]
  cases readNumerals (text.toList.length + 1) (lexemes 1 text.toList) with
  | error fault => rfl
  | ok scanned =>
    obtain ⟨minterms, rest⟩ := scanned
    simp only [bind, Except.bind]
    cases readRest (text.toList.length + 1) rest <;> rfl

theorem readRest_of_opening {inner : List Placed} (opened : afterOpening? parts = some inner) :
    readRest ending parts = readDontcares ending inner := by
  cases parts with
  | nil => cases opened
  | cons part parts =>
    rw [readRest, opened]
    rfl

theorem readRest_of_unopened (nonempty : parts ≠ []) (failed : afterOpening? parts = none) :
    readRest ending parts =
      .error (.malformedTerms (columnOf ending parts) (expectedAt (columnOf ending parts))) := by
  cases parts with
  | nil => exact absurd rfl nonempty
  | cons part parts =>
    rw [readRest, failed]
    rfl

variable {others minterms : List (List Char)} {middle inner : List Char} {expected : List TermPart}

theorem exists_readRest_of_opening
    (opened : Rule.opening (middle.dropWhile isGap) = some ((), inner))
    (place : column + (middle.dropWhile isGap).length = ending) : ∃ next, next + inner.length = ending ∧
      readRest ending (lexemes column (middle.dropWhile isGap)) =
        readDontcares ending (lexemes next inner) := by
  rw [← List.dropWhile_idempotent] at opened
  obtain ⟨next, begins, parts⟩ := exists_afterOpening? column opened
  exact ⟨next, begins.trans place, readRest_of_opening parts⟩

theorem readRest_of_completes (completes : Rule.Completes others (middle.dropWhile isGap))
    (place : column + (middle.dropWhile isGap).length = ending) :
    readRest ending (lexemes column (middle.dropWhile isGap)) = .ok others := by
  obtain ⟨empty, rfl⟩ | ⟨after, found, gaps⟩ := completes
  · rw [empty]
    rfl
  · obtain ⟨inner, last, opened, listed, closes⟩ := Rule.dontcares_eq_some_iff_list.mp found
    obtain ⟨next, begins, same⟩ := exists_readRest_of_opening opened place
    rw [same]
    exact readDontcares_of_list listed closes gaps begins

theorem readRest_of_stuck (stuck : Rule.Stuck minterms middle rest expected)
    (same : Rule.lack minterms middle = middle.dropWhile isGap) (positive : 0 < column)
    (place : column + (middle.dropWhile isGap).length = ending) : ∃ stop, stop + rest.length = ending ∧
      readRest ending (lexemes column (middle.dropWhile isGap)) =
        .error (.malformedTerms stop (if stop = 1 then [.terms] else expected)) := by
  have later : ∀ stop, stop + rest.length = ending →
      rest.length < (middle.dropWhile isGap).length → stop ≠ 1 := by omega
  cases stuck with
  | comma further => exact absurd same further
  | unopened _ failed goes =>
    rw [← List.dropWhile_idempotent] at failed
    have some : lexemes column (middle.dropWhile isGap) ≠ [] := fun none => by
      have gaps := List.dropWhile_eq_nil_iff.mpr (lexemes_eq_nil_iff.mp none)
      rw [List.dropWhile_idempotent] at gaps
      exact goes gaps
    have stop := columnOf_lexemes place
    rw [List.dropWhile_idempotent] at stop
    exact ⟨_, stop, readRest_of_unopened some (afterOpening?_of_none failed)⟩
  | unclosed opened listed unclosed =>
    have shorter := Rule.length_lt_of_unclosed opened listed
    obtain ⟨next, begins, same⟩ := exists_readRest_of_opening opened place
    obtain ⟨stop, behind, read⟩ := readDontcares_of_unclosed listed unclosed begins
    refine ⟨stop, behind, ?_⟩
    rw [same, read, if_neg (later stop behind shorter)]
  | unfinished found goes =>
    have shorter := Rule.length_lt_of_dontcares found
    obtain ⟨inner, last, opened, listed, closes⟩ := Rule.dontcares_eq_some_iff_list.mp found
    obtain ⟨next, begins, same⟩ := exists_readRest_of_opening opened place
    obtain ⟨stop, behind, read⟩ := readDontcares_of_unfinished listed closes goes begins
    refine ⟨stop, behind, ?_⟩
    rw [same, read, if_neg (later stop behind shorter)]

variable {input : String}

theorem numeralsOf_of_terms (read : Rule.terms input.toList = some ((minterms, others), rest)) :
    numeralsOf input = .ok (minterms, others) := by
  obtain ⟨-, middle, listed, completes⟩ := Rule.terms_eq_some_iff_list.mp read
  have scans := scans_readNumerals listed (Nat.add_comm 1 _)
  rw [numeralsOf]
  generalize readNumerals (input.toList.length + 1) (lexemes 1 input.toList) = outcome at scans ⊢
  cases scans with
  | comma lacks _ => exact absurd (Rule.lack_eq_of_completes completes minterms) lacks
  | done _ place =>
    simp only [bind, Except.bind]
    rw [readRest_of_completes completes place]
    rfl

theorem numeralsOf_of_stuck
    (listed : Rule.list (input.toList.dropWhile isGap) = some (minterms, middle))
    (stuck : Rule.Stuck minterms middle rest expected) :
    ∃ stop, stop + rest.length = input.toList.length + 1 ∧ numeralsOf input =
      .error (.malformedTerms stop (if stop = 1 then [.terms] else expected)) := by
  have scans := scans_readNumerals listed (Nat.add_comm 1 _)
  have shorter := Rule.length_of_list listed
  rw [numeralsOf]
  generalize readNumerals (input.toList.length + 1) (lexemes 1 input.toList) = outcome at scans ⊢
  cases scans with
  | done same place =>
    obtain ⟨stop, behind, read⟩ := readRest_of_stuck stuck same (by omega) place
    refine ⟨stop, behind, ?_⟩
    simp only [bind, Except.bind]
    rw [read]
  | @comma stop further behind =>
    obtain ⟨rfl, rfl⟩ := stuck.eq_of_lack_ne further
    have before := Rule.length_lack_lt further
    refine ⟨stop, behind, ?_⟩
    rw [if_neg (by omega)]
    rfl

theorem refused_numeralsOf (failed : Rule.terms input.toList = none) : Refused (numeralsOf input) := by
  obtain ⟨minterms, middle, listed, rest, expected, stuck⟩ := Rule.exists_stuck failed
  obtain ⟨stop, -, refuses⟩ := numeralsOf_of_stuck listed stuck
  exact ⟨_, _, refuses⟩

end Switching.TermList
