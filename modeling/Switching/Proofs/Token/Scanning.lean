import Switching.Proofs.Outcome
import Switching.Proofs.Token.Writing

/-! # What a text reads as

The visible characters of a text are judged one by one: each has to belong to the alphabet of expressions,
and a run of apostrophes may start after a letter only. A text without offence reads as one token for each
letter and each sign, with a negation after a letter that is followed by an odd number of apostrophes;
otherwise the first offence is reported (`readAll_exact`).
-/

namespace Switching.Token

variable {c : Char} {token : Token} {marks : Marks} {before chars rest : List Char}
  {tokens : List Token} {position : Nat}

/-! ## Single characters -/

/-- A character other than an apostrophe is read as a letter or as a sign. -/
theorem ofChar?_eq (c : Char) :
    ofChar? c = if c.isAlpha then some (var c.toUpper) else signs.lookup c := by
  split
  · next isLetter => exact ofChar?_letter isLetter
  · next noLetter =>
    unfold ofChar?
    split
    all_goals try rfl
    rw [if_neg noLetter, eq_comm, List.lookup_eq_none_iff]
    simp_all [signs]

theorem ofChar?_isSome : (ofChar? c).isSome = true ↔ c.isAlpha = true ∨ c ∈ signs.map Prod.fst := by
  rw [ofChar?_eq]
  split
  · next isLetter => simp [isLetter]
  · next noLetter => simp [noLetter, List.lookup_isSome_iff]

theorem inAlphabet_iff_of_ne (plain : c ≠ '\'') :
    InAlphabet c ↔ (ofChar? c).isSome = true := by
  rw [ofChar?_isSome, InAlphabet, or_iff_left plain]

/-- Apostrophes may follow a letter only, so that no other token leaves a run open. -/
theorem marks_of_ofChar? (meaning : ofChar? c = some token) :
    token.marks = if c.isAlpha then .even else .closed := by
  rw [ofChar?_eq] at meaning
  split at meaning
  · next isLetter =>
    cases meaning
    exact (if_pos isLetter).symm
  · next noLetter =>
    obtain ⟨first, last, listed, _⟩ := List.lookup_eq_some_iff.mp meaning
    have member : (c, token) ∈ signs := by rw [listed]; simp
    have closed : ∀ sign ∈ signs, sign.2.marks = .closed := by decide
    rw [if_neg noLetter]
    exact closed _ member

/-! ## Offences -/

theorem previous?_append (before rest : List Char) :
    previous? (before ++ rest) before.length = before.getLast? := by
  rw [previous?, List.take_left]

theorem IsOffence.lt_length (offence : IsOffence chars position) : position < chars.length := by
  rcases offence with ⟨c, here, _⟩ | ⟨⟨here, _⟩, _⟩
  all_goals exact (List.getElem?_eq_some_iff.mp here).1

/-- The marks are closed if the character that was read last is neither an apostrophe, so that another
one would start a run, nor a letter. -/
def Marks.Fit (marks : Marks) (last : Option Char) : Prop :=
  marks = .closed ↔ last ≠ some '\'' ∧ ¬ ∃ letter, last = some letter ∧ letter.isAlpha = true

theorem Marks.fit_next {next : Marks} (another : marks.next? = some next) :
    next.Fit (some '\'') := by
  refine iff_of_false ?_ fun absent => absent.1 rfl
  cases marks with
  | closed => cases another
  | even => cases another; exact nofun
  | odd => cases another; exact nofun

theorem Marks.fit_marks (plain : c ≠ '\'') (meaning : ofChar? c = some token) :
    token.marks.Fit (some c) := by
  rw [Marks.Fit, marks_of_ofChar? meaning]
  cases isLetter : c.isAlpha <;> simp [plain, isLetter]

/-- A character is an offence if it does not belong to the alphabet, or if it is an apostrophe where none
may follow. -/
theorem isOffence_append_iff (fit : marks.Fit before.getLast?) :
    IsOffence (before ++ c :: rest) before.length ↔
      ¬ InAlphabet c ∨ c = '\'' ∧ marks = .closed := by
  have here : (before ++ c :: rest)[before.length]? = some c := by simp
  simp only [IsOffence, StartsRun, FollowsLetter, previous?_append, here, Option.some.injEq,
    exists_eq_left', and_assoc]
  exact or_congr_right (and_congr_right fun _ => fit.symm)

/-! ## The first offence -/

/-- The outcome of reading visible characters: there are tokens if no position offends, and otherwise
the first one that does is reported. -/
def Judges (chars : List Char) : Except Fault (List Token) → Prop
  | .ok _ => ∀ position, ¬ IsOffence chars position
  | .error fault => ∃ position c, chars[position]? = some c ∧ IsOffence chars position ∧
      (∀ earlier < position, ¬ IsOffence chars earlier) ∧ fault = .unexpectedChar c position

theorem Judges.map {outcome : Except Fault (List Token)} (judges : Judges chars outcome)
    (f : List Token → List Token) : Judges chars (outcome.map f) := by
  cases outcome with
  | ok tokens => exact judges
  | error fault => exact judges

/-- A character that is no offence is read over, with marks that fit it, and an offence is reported. -/
theorem scan_cons_cases (fit : marks.Fit before.getLast?) (c : Char) (rest : List Char) :
    (¬ IsOffence (before ++ c :: rest) before.length ∧ ∃ (next : Marks) (f : List Token → List Token),
      next.Fit (some c) ∧
        ∀ position, scan position marks (c :: rest) = (scan (position + 1) next rest).map f) ∨
    IsOffence (before ++ c :: rest) before.length ∧
      ∀ position, scan position marks (c :: rest) = .error (.unexpectedChar c position) := by
  simp only [isOffence_append_iff fit, scan]
  by_cases apostrophe : c = '\''
  · subst apostrophe
    have listed : InAlphabet '\'' := .inr (.inr rfl)
    simp only [if_pos]
    cases another : marks.next? with
    | some next =>
      refine .inl ⟨?_, next, id, Marks.fit_next another, fun _ => by rw [Except.map_id, id]⟩
      rintro (foreign | ⟨_, rfl⟩)
      · exact foreign listed
      · cases another
    | none =>
      refine .inr ⟨.inr ⟨trivial, ?_⟩, fun _ => rfl⟩
      cases marks with
      | closed => rfl
      | even => cases another
      | odd => cases another
  · simp only [if_neg apostrophe, inAlphabet_iff_of_ne apostrophe]
    cases meaning : ofChar? c with
    | some token =>
      refine .inl ⟨?_, token.marks, _, Marks.fit_marks apostrophe meaning, fun _ => rfl⟩
      rintro (foreign | ⟨same, _⟩)
      · exact foreign rfl
      · exact apostrophe same
    | none => exact .inr ⟨.inl Bool.false_ne_true, fun _ => rfl⟩

/-- Reading goes on as long as there is no offence. -/
theorem judges_scan (fit : marks.Fit before.getLast?)
    (clean : ∀ earlier < before.length, ¬ IsOffence (before ++ rest) earlier) :
    Judges (before ++ rest) (scan before.length marks rest) := by
  induction rest generalizing before marks with
  | nil =>
    intro position offence
    have inside := offence.lt_length
    rw [List.append_nil] at inside
    exact clean position inside offence
  | cons c rest ih =>
    rcases scan_cons_cases fit c rest with ⟨fine, next, f, fits, scanned⟩ | ⟨offence, stopped⟩
    · have whole : before ++ c :: rest = (before ++ [c]) ++ rest := by simp
      have length : (before ++ [c]).length = before.length + 1 := by simp
      rw [scanned, whole, ← length]
      refine (ih (by rwa [List.getLast?_concat]) fun earlier below => ?_).map f
      rw [← whole]
      rcases Nat.lt_succ_iff_lt_or_eq.mp (length ▸ below) with below | rfl
      · exact clean earlier below
      · exact fine
    · rw [stopped]
      exact ⟨before.length, c, by simp, offence, clean, rfl⟩

/-! ## The tokens -/

/-- The tokens that the apostrophes before and after a position amount to. -/
def Marks.pending : Marks → List Char → List Token
  | closed, _ => []
  | even, rest => negation rest
  | odd, rest => if apostrophes rest % 2 = 1 then [] else [operator (.not .after)]

theorem apostrophes_cons (rest : List Char) : apostrophes ('\'' :: rest) = apostrophes rest + 1 := by
  simp [apostrophes]

theorem apostrophes_cons_of_ne (plain : c ≠ '\'') (rest : List Char) :
    apostrophes (c :: rest) = 0 := by
  simp [apostrophes, plain]

theorem Marks.pending_cons {next : Marks} (another : marks.next? = some next) (rest : List Char) :
    marks.pending ('\'' :: rest) = next.pending rest := by
  cases marks with
  | closed => cases another
  | even =>
    cases another
    simp only [pending, negation, apostrophes_cons]
    split <;> split <;> first | rfl | omega
  | odd =>
    cases another
    simp only [pending, negation, apostrophes_cons]
    split <;> split <;> first | rfl | omega

theorem Marks.pending_cons_of_ne (plain : c ≠ '\'') (marks : Marks) (rest : List Char) :
    marks.pending (c :: rest) = marks.tokens := by
  cases marks <;> simp [pending, negation, apostrophes_cons_of_ne plain, tokens]

/-- A character other than an apostrophe stands for its token and the negation that follows. -/
theorem spelling_of_ofChar? (meaning : ofChar? c = some token) (rest : List Char) :
    spelling c rest = token :: token.marks.pending rest := by
  rw [marks_of_ofChar? meaning, spelling]
  rw [ofChar?_eq] at meaning
  split at meaning
  · next isLetter =>
    cases meaning
    simp [isLetter, Marks.pending]
  · next noLetter => simp [noLetter, meaning, Marks.pending]

theorem eq_spelled_of_scan (success : scan position marks chars = .ok tokens) :
    tokens = marks.pending chars ++ spelled chars := by
  fun_induction scan position marks chars generalizing tokens with
  | case1 position marks =>
    cases success
    cases marks <;> rfl
  | case2 position marks rest next another ih =>
    rw [Marks.pending_cons another]
    exact ih success
  | case3 => cases success
  | case4 position marks c rest plain token meaning ih =>
    obtain ⟨others, later, rfl⟩ := map_eq_ok_iff.mp success
    rw [Marks.pending_cons_of_ne plain, spelled, spelling_of_ofChar? meaning, ih later]
    simp
  | case5 => cases success

/-! ## Whole texts -/

theorem judges_readAll (text : String) : Judges (visible text) (readAll text) := by
  have fit : Marks.closed.Fit ([] : List Char).getLast? := iff_of_true rfl ⟨nofun, nofun⟩
  have judges : Judges ([] ++ visible text) (scan ([] : List Char).length .closed (visible text)) :=
    judges_scan fit nofun
  exact judges

theorem eq_spelled_of_readAll {text : String} (success : readAll text = .ok tokens) :
    tokens = spelled (visible text) :=
  eq_spelled_of_scan success

theorem forall_not_isOffence_iff : (∀ position, ¬ IsOffence chars position) ↔
    (∀ c ∈ chars, InAlphabet c) ∧ ∀ position, StartsRun chars position → FollowsLetter chars position := by
  simp only [IsOffence, not_or, not_exists, not_and, not_not, forall_and]
  refine and_congr_left fun _ => ?_
  constructor
  · intro known c member
    obtain ⟨position, here⟩ := List.getElem?_of_mem member
    exact known position c here
  · exact fun known position c here => known c (List.mem_of_getElem? here)

/-- There is one first offence only. -/
theorem Judges.right_unique {first second : Fault} (left : Judges chars (.error first))
    (right : Judges chars (.error second)) : first = second := by
  obtain ⟨position, c, here, offence, clean, rfl⟩ := left
  obtain ⟨other, d, there, another, cleanOther, rfl⟩ := right
  obtain rfl : position = other := by
    rcases Nat.lt_trichotomy position other with below | same | above
    · exact absurd offence (cleanOther position below)
    · exact same
    · exact absurd another (clean other above)
  rw [Option.some.inj (here.symm.trans there)]

/-- What a text reads as, its blanks left out. It has tokens if and only if each of its characters belongs
to the alphabet of expressions and each run of apostrophes follows a letter, and the tokens are then those
that the characters stand for, in their order. Otherwise the fault names the first character that does not
belong to the alphabet or starts a run of apostrophes elsewhere than after a letter, with its position. -/
theorem readAll_exact (text : String) :
    (∀ tokens, readAll text = .ok tokens ↔
      (∀ c ∈ visible text, InAlphabet c) ∧
      (∀ position, StartsRun (visible text) position → FollowsLetter (visible text) position) ∧
      tokens = spelled (visible text)) ∧
    ∀ fault, readAll text = .error fault ↔
      ∃ position c, (visible text)[position]? = some c ∧ IsOffence (visible text) position ∧
        (∀ earlier < position, ¬ IsOffence (visible text) earlier) ∧
        fault = .unexpectedChar c position := by
  have judges := judges_readAll text
  constructor
  · intro tokens
    rw [← and_assoc, ← forall_not_isOffence_iff]
    constructor
    · intro success
      rw [success] at judges
      exact ⟨judges, eq_spelled_of_readAll success⟩
    · rintro ⟨clean, rfl⟩
      cases read : readAll text with
      | ok tokens => rw [eq_spelled_of_readAll read]
      | error fault =>
        rw [read] at judges
        obtain ⟨position, _, _, offence, _⟩ := judges
        exact absurd offence (clean position)
  · intro fault
    change _ ↔ Judges (visible text) (.error fault)
    constructor
    · intro failure
      rwa [failure] at judges
    · intro first
      cases read : readAll text with
      | ok tokens =>
        rw [read] at judges
        obtain ⟨position, _, _, offence, _⟩ := first
        exact absurd offence (judges position)
      | error other =>
        rw [read] at judges
        rw [judges.right_unique first]

end Switching.Token
