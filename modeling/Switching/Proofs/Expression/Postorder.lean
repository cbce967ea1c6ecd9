import Switching.Formula.Grammar
import Switching.Proofs.Expression.Expansion
import Switching.Proofs.Expression.Reordering

/-! # Tokens that spell a tree are put into its postorder

While a phrase of the grammar is read, some of its tree is passed on and the rest waits, as operators
that bind at least as tightly as the level of the phrase. `Passes` says so for any stack of tokens
held back below and any tokens to come. It holds of every phrase, by induction on the grammar.
-/

namespace Switching

open Expression

/-- The precedence from which on the operators of a level bind. -/
def Level.strength : Level → Nat
  | sum => 1
  | parity => 2
  | product => 3
  | negated => 4
  | marked => 5
  | primary => 5

namespace Spells

variable {level : Level} {tokens : List Token} {f : Formula}

/-- No connective of a level makes what was held back last give way. -/
def Clear (level : Level) (held : List Held) : Prop :=
  ∀ connective : Connective, level.strength ≤ (Operator.binary connective).precedence →
    ∀ top ∈ held.head?, top.yieldsTo (.binary connective) = false

/-- Of a tree, `out` is passed on and the operators `waiting` are held back, whatever was held back
before and whatever follows. -/
def Passes (level : Level) (tokens : List Token) (f : Formula) : Prop :=
  ∃ (out : List Token) (waiting : List Operator), out ++ waiting.map .operator = f.postorder ∧
    (∀ op ∈ waiting, level.strength ≤ op.precedence) ∧
    ∀ held rest, Clear level held →
      reorder held (tokens ++ rest) =
        (reorder (waiting.map .operator ++ held) rest).map (out ++ ·)

/-! ## What the grammar says about the ends of a phrase -/

/-- A phrase ends an operand. -/
theorem endedAfter_eq (spells : Spells level tokens f) (ended : Bool) :
    endedAfter ended tokens = true := by
  induction spells generalizing ended with
  | constant _ => rfl
  | var _ => rfl
  | paren _ _ => simp [endedAfter, Token.endsOperand]
  | primary _ ih => exact ih ended
  | marked _ ih => exact ih ended
  | negated _ ih => exact ih ended
  | product _ ih => exact ih ended
  | parity _ ih => exact ih ended
  | notAfter _ _ => simp [endedAfter, Token.endsOperand]
  | notBefore _ ih => exact ih _
  | and _ _ _ right => rw [endedAfter_append]; exact right _
  | juxtapose _ _ _ right => rw [endedAfter_append]; exact right _
  | xor _ _ _ right => rw [endedAfter_append]; exact right _
  | or _ _ _ right => rw [endedAfter_append]; exact right _

/-- A phrase starts an operand. -/
theorem startsOperand_head? (spells : Spells level tokens f) :
    ∃ first rest, tokens = first :: rest ∧ first.startsOperand = true := by
  induction spells with
  | constant _ => exact ⟨_, _, rfl, rfl⟩
  | var _ => exact ⟨_, _, rfl, rfl⟩
  | paren _ _ => exact ⟨_, _, rfl, rfl⟩
  | primary _ ih => exact ih
  | marked _ ih => exact ih
  | negated _ ih => exact ih
  | product _ ih => exact ih
  | parity _ ih => exact ih
  | notAfter _ ih =>
    obtain ⟨first, rest, rfl, starts⟩ := ih
    exact ⟨first, _, rfl, starts⟩
  | notBefore _ _ => exact ⟨_, _, rfl, rfl⟩
  | and _ _ left _ =>
    obtain ⟨first, rest, rfl, starts⟩ := left
    exact ⟨first, _, rfl, starts⟩
  | juxtapose _ _ left _ =>
    obtain ⟨first, rest, rfl, starts⟩ := left
    exact ⟨first, _, rfl, starts⟩
  | xor _ _ left _ =>
    obtain ⟨first, rest, rfl, starts⟩ := left
    exact ⟨first, _, rfl, starts⟩
  | or _ _ left _ =>
    obtain ⟨first, rest, rfl, starts⟩ := left
    exact ⟨first, _, rfl, starts⟩

/-- After an operand, a phrase is joined to it by a conjunction. -/
theorem expand_true (spells : Spells level tokens f) :
    expand true tokens = .operator (.binary .and) :: expand false tokens := by
  obtain ⟨first, rest, rfl, starts⟩ := spells.startsOperand_head?
  simp [expand, link, starts]

/-! ## Reading a phrase -/

theorem Passes.loosen {high low : Level} (passes : Passes high tokens f)
    (looser : low.strength ≤ high.strength) : Passes low tokens f := by
  obtain ⟨out, waiting, postorder, tight, read⟩ := passes
  refine ⟨out, waiting, postorder, fun op member => looser.trans (tight op member), ?_⟩
  intro held rest clear
  exact read held rest fun connective strong => clear connective (looser.trans strong)

theorem clear_paren (level : Level) (held : List Held) : Clear level (.paren :: held) := by
  rintro connective _ top found
  obtain rfl := Option.some.inj found
  rfl

/-- Nothing is left waiting by the tightest levels. -/
theorem Passes.waiting_eq_nil {waiting : List Operator}
    (tight : ∀ op ∈ waiting, 5 ≤ op.precedence) : waiting = [] := by
  refine List.eq_nil_iff_forall_not_mem.mpr fun op member => ?_
  have strong := tight op member
  match op with
  | .not _ => simp [Operator.precedence] at strong
  | .binary .and => simp [Operator.precedence] at strong
  | .binary .or => simp [Operator.precedence] at strong
  | .binary .xor => simp [Operator.precedence] at strong

/-- A connective makes all operators that wait since it became possible give way, and no other. -/
theorem reorder_connective {connective : Connective} {waiting : List Operator} {held : List Held}
    (tight : ∀ op ∈ waiting, (Operator.binary connective).precedence ≤ op.precedence)
    (clear : ∀ top ∈ held.head?, top.yieldsTo (.binary connective) = false) (rest : List Token) :
    reorder (waiting.map .operator ++ held) (.operator (.binary connective) :: rest) =
      (reorder (.operator (.binary connective) :: held) rest).map (waiting.map .operator ++ ·) := by
  have yields : ∀ top ∈ waiting.map Held.operator, top.yieldsTo (.binary connective) = true := by
    intro top member
    obtain ⟨op, waits, rfl⟩ := List.mem_map.mp member
    have strong := tight op waits
    simp only [Held.yieldsTo, Operator.yieldsTo, Operator.associativity, Bool.or_eq_true,
      Bool.and_eq_true, decide_eq_true_eq, beq_iff_eq, beq_self_eq_true, and_true]
    omega
  have stays : held.dropWhile (·.yieldsTo (.binary connective)) = held ∧
      held.takeWhile (·.yieldsTo (.binary connective)) = [] := by
    cases held with
    | nil => exact ⟨rfl, rfl⟩
    | cons top held => simp [clear top rfl]
  rw [reorder]
  simp only [Operator.fixity]
  rw [List.takeWhile_append_of_pos yields, List.dropWhile_append_of_pos yields, stays.1, stays.2,
    List.append_nil]
  simp [Function.comp_def]

theorem Passes.binary {connective : Connective} {low high : Level} {left right : List Token}
    {g : Formula} (weaker : low.strength = (Operator.binary connective).precedence)
    (stronger : high.strength = (Operator.binary connective).precedence + 1)
    (first : Passes low left f) (second : Passes high right g) :
    Passes low (left ++ .operator (.binary connective) :: right) (.binary connective f g) := by
  obtain ⟨outLeft, waitingLeft, postorderLeft, tightLeft, readLeft⟩ := first
  obtain ⟨outRight, waitingRight, postorderRight, tightRight, readRight⟩ := second
  refine ⟨f.postorder ++ outRight, waitingRight ++ [.binary connective], ?_, ?_, ?_⟩
  · simp [Formula.postorder, ← postorderRight]
  · intro op member
    rcases List.mem_append.mp member with member | member
    · have := tightRight op member
      omega
    · rw [List.mem_singleton.mp member, weaker]
  · intro held rest clear
    have clearRight : Clear high (.operator (.binary connective) :: held) := by
      intro other strong top found
      obtain rfl := Option.some.inj found
      simp only [Held.yieldsTo, Operator.yieldsTo, Bool.or_eq_false_iff, decide_eq_false_iff_not,
        Bool.and_eq_false_iff, beq_eq_false_iff_ne]
      omega
    rw [List.append_assoc, List.cons_append, readLeft held _ clear,
      reorder_connective (weaker ▸ tightLeft) (clear connective (Nat.le_of_eq weaker)),
      readRight _ rest clearRight, map_map, map_map]
    simp [← postorderLeft]

theorem passes_operand (token : Token) (operand : f.postorder = [token])
    (read : ∀ held rest, reorder held (token :: rest) = (reorder held rest).map (token :: ·)) :
    Passes .primary [token] f := by
  refine ⟨[token], [], by simp [operand], by simp, fun held rest _ => ?_⟩
  simpa using read held rest

/-- A closing parenthesis makes everything give way that waits since the opening one. -/
theorem Passes.paren (passes : Passes .sum tokens f) :
    Passes .primary (.openParen :: tokens ++ [.closeParen]) f := by
  obtain ⟨out, waiting, postorder, _, read⟩ := passes
  refine ⟨f.postorder, [], by simp, by simp, fun held rest _ => ?_⟩
  have stays : ∀ top ∈ waiting.map Held.operator, decide (top ≠ .paren) = true := by simp
  have close : reorder (waiting.map .operator ++ .paren :: held) (.closeParen :: rest) =
      (reorder held rest).map (waiting.map .operator ++ ·) := by
    rw [reorder, List.takeWhile_append_of_pos stays, List.dropWhile_append_of_pos stays]
    simp [Function.comp_def]
  calc
    reorder held (.openParen :: tokens ++ [.closeParen] ++ rest)
      = reorder (.paren :: held) (tokens ++ .closeParen :: rest) := by simp [reorder]
    _ = ((reorder held rest).map (waiting.map .operator ++ ·)).map (out ++ ·) := by
      rw [read _ _ (clear_paren _ held), close]
    _ = (reorder held rest).map (f.postorder ++ ·) := by
      rw [map_map, ← postorder]
      simp

theorem Passes.notAfter (passes : Passes .marked tokens f) :
    Passes .marked (tokens ++ [.operator (.not .after)]) (.not .after f) := by
  obtain ⟨out, waiting, postorder, tight, read⟩ := passes
  obtain rfl := waiting_eq_nil tight
  refine ⟨out ++ [.operator (.not .after)], [], ?_, by simp, fun held rest clear => ?_⟩
  · simp [Formula.postorder, ← postorder]
  · have mark : reorder held (.operator (.not .after) :: rest) =
        (reorder held rest).map (.operator (.not .after) :: ·) := rfl
    rw [List.append_assoc, read held _ clear, List.singleton_append]
    simp only [List.map_nil, List.nil_append, mark, map_map, List.append_assoc,
      List.singleton_append]

theorem Passes.notBefore (passes : Passes .negated tokens f) :
    Passes .negated (.operator (.not .before) :: tokens) (.not .before f) := by
  obtain ⟨out, waiting, postorder, tight, read⟩ := passes
  refine ⟨out, waiting ++ [.not .before], ?_, ?_, fun held rest clear => ?_⟩
  · simp [Formula.postorder, ← postorder]
  · intro op member
    rcases List.mem_append.mp member with member | member
    · exact tight op member
    · rw [List.mem_singleton.mp member]
      exact Nat.le_refl _
  · have clear : Clear .negated (.operator (.not .before) :: held) := by
      intro connective strong
      cases connective <;> simp [Level.strength, Operator.precedence] at strong
    have mark : reorder held (.operator (.not .before) :: (tokens ++ rest)) =
        reorder (.operator (.not .before) :: held) (tokens ++ rest) := rfl
    rw [List.cons_append, mark, read _ rest clear]
    simp

/-! ## All phrases -/

theorem expand_binary (connective : Connective) {left right : List Token} :
    expand false (left ++ .operator (.binary connective) :: right) =
      expand false left ++ .operator (.binary connective) :: expand false right := by
  rw [expand_append]
  simp [expand, link, Token.startsOperand, Token.endsOperand]

/-- A phrase is passed on as its tree in postorder. -/
theorem passes (spells : Spells level tokens f) : Passes level (expand false tokens) f := by
  induction spells with
  | constant value => exact passes_operand _ rfl fun _ _ => rfl
  | var name => exact passes_operand _ rfl fun _ _ => rfl
  | @paren tokens f _ ih =>
    have expanded : expand false (.openParen :: tokens ++ [.closeParen]) =
        .openParen :: expand false tokens ++ [.closeParen] := by
      rw [expand_append]
      simp [expand, link, Token.startsOperand, Token.endsOperand]
    rw [expanded]
    exact ih.paren
  | primary _ ih => exact ih.loosen (by decide)
  | marked _ ih => exact ih.loosen (by decide)
  | negated _ ih => exact ih.loosen (by decide)
  | product _ ih => exact ih.loosen (by decide)
  | parity _ ih => exact ih.loosen (by decide)
  | @notAfter tokens f _ ih =>
    have expanded : expand false (tokens ++ [.operator (.not .after)]) =
        expand false tokens ++ [.operator (.not .after)] := by
      rw [expand_append]
      simp [expand, link, Token.startsOperand]
    rw [expanded]
    exact ih.notAfter
  | notBefore _ ih => exact ih.notBefore
  | and _ _ left right =>
    rw [expand_binary]
    exact left.binary rfl rfl right
  | juxtapose first second left right =>
    rw [expand_append, first.endedAfter_eq, second.expand_true]
    exact left.binary rfl rfl right
  | xor _ _ left right =>
    rw [expand_binary]
    exact left.binary rfl rfl right
  | or _ _ left right =>
    rw [expand_binary]
    exact left.binary rfl rfl right

/-- Tokens that spell a tree are put into its postorder. -/
theorem ofInfix_eq (spells : Spells .sum tokens f) : ofInfix tokens = .ok ⟨f.postorder⟩ := by
  obtain ⟨out, waiting, postorder, _, read⟩ := spells.passes
  have clear : Clear .sum [] := fun _ _ top found => by simp at found
  have whole := read [] [] clear
  rw [List.append_nil] at whole
  rw [ofInfix, insertProducts_eq, whole, ← postorder]
  simp [reorder, Except.map, Function.comp_def]

end Spells

end Switching
