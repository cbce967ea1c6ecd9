import Switching.Proofs.Assignment
import Switching.Proofs.TruthTable

/-! # Faults do not depend on values

The height of the stack, and with it the first token that fails, is told by the tokens and by the letters
that have a value, whatever the values are (`map_length_run`, `map_eval`). The assignments of all indices
give values to the same letters, so that the rows of a truth table fail alike: there is a table if its
first row has a value, and otherwise the fault is that of the first row (`eval_uniform`).
-/

namespace Switching

namespace Assignment

variable {env : Assignment} {pairs : List (Char × Bool)} {name : Char}

/-- Whether a letter has a value. -/
def knows (env : Assignment) (name : Char) : Bool :=
  (env.get? name).isSome

/-- A letter has a value if it had one before or is among those that are given one. -/
theorem knows_foldl_iff :
    (pairs.foldl (fun env pair => env.set pair.1 pair.2) env).knows name = true ↔
      env.knows name = true ∨ ∃ letter ∈ pairs.map Prod.fst,
        (Letter.slot? letter).isSome = true ∧ Letter.slot? letter = Letter.slot? name := by
  induction pairs generalizing env with
  | nil => simp
  | cons pair pairs ih =>
    rw [List.foldl_cons, ih, List.map_cons, List.exists_mem_cons_iff, ← or_assoc]
    refine or_congr_left ?_
    rw [knows, knows, set, get?_assign]
    split
    · next given => exact iff_of_true rfl (.inr given)
    · next kept => rw [or_iff_left kept]

theorem knows_ofPairs_iff : (ofPairs pairs).knows name = true ↔
    ∃ letter ∈ pairs.map Prod.fst,
      (Letter.slot? letter).isSome = true ∧ Letter.slot? letter = Letter.slot? name := by
  have unknown : (∅ : Assignment).knows name = false := by rw [knows, get?_empty, Option.isSome_none]
  rw [ofPairs, knows_foldl_iff, unknown]
  simp

/-- The assignments of all indices give values to the same letters. -/
theorem knows_ofIndex (vars : Variables) (index other : Nat) :
    (ofIndex vars index).knows = (ofIndex vars other).knows := by
  have named (index : Nat) :
      (vars.names.zip (Minterm.bits vars.size index)).map Prod.fst = vars.names :=
    List.map_fst_zip (Nat.le_of_eq (Minterm.length_bits vars.size index).symm)
  funext name
  rw [Bool.eq_iff_iff, ofIndex, ofIndex, knows_ofPairs_iff, knows_ofPairs_iff, named, named]

end Assignment

namespace Expression

variable {env : Assignment} {e : Expression}

/-! ## Evaluation without values -/

/-- The height of the stack after a token. -/
def climb (known : Char → Bool) (height : Nat) : Token → Except Fault Nat
  | .constant _ => .ok (height + 1)
  | .var name => if known name then .ok (height + 1) else .error (.undefinedVariable name)
  | .operator (.not _) => if 1 ≤ height then .ok height else .error .missingOperand
  | .operator (.binary _) => if 2 ≤ height then .ok (height - 1) else .error .missingOperand
  | .openParen => .error (.unexpectedToken .openParen)
  | .closeParen => .error (.unexpectedToken .closeParen)

/-- Whether a stack of some height is a result. -/
def settle (height : Nat) : Except Fault Unit :=
  if height = 1 then .ok () else .error .notAnExpression

/-- Whether an expression has a value, or else its fault. -/
def verdict (e : Expression) (known : Char → Bool) : Except Fault Unit :=
  e.tokens.foldlM (climb known) 0 >>= settle

theorem map_length_step (env : Assignment) (stack : List Bool) (token : Token) :
    (step env stack token).map List.length = climb env.knows stack.length token := by
  match token, stack with
  | .constant _, _ => rfl
  | .var name, stack =>
    rcases Option.eq_none_or_eq_some (env.get? name) with unknown | ⟨value, found⟩
    · simp [step, climb, Assignment.knows, unknown, Except.map]
    · simp [step, climb, Assignment.knows, found, Except.map]
  | .operator (.not _), [] => rfl
  | .operator (.not _), _ :: _ => simp [step, climb, Except.map]
  | .operator (.binary _), [] => rfl
  | .operator (.binary _), [_] => rfl
  | .operator (.binary _), _ :: _ :: _ => simp [step, climb, Except.map]
  | .openParen, _ => rfl
  | .closeParen, _ => rfl

theorem map_length_run (env : Assignment) (tokens : List Token) (stack : List Bool) :
    (run env tokens stack).map List.length = tokens.foldlM (climb env.knows) stack.length := by
  induction tokens generalizing stack with
  | nil => rfl
  | cons token rest ih =>
    rw [run_cons, List.foldlM_cons, ← map_length_step]
    cases step env stack token with
    | error fault => rfl
    | ok next => exact ih next

theorem map_result (stack : List Bool) :
    (result stack).map (fun _ => ()) = settle stack.length := by
  match stack with
  | [] => rfl
  | [_] => rfl
  | _ :: _ :: _ => simp [result, settle, Except.map]

/-- Only the letters that have a value decide whether an expression has one. -/
theorem map_eval (e : Expression) (env : Assignment) :
    (e.eval env).map (fun _ => ()) = e.verdict env.knows := by
  have heights := map_length_run env e.tokens []
  rw [eval, verdict, ← List.length_nil (α := Bool), ← heights]
  cases run env e.tokens [] with
  | error fault => rfl
  | ok stack => exact map_result stack

theorem eval_eq_error_iff {fault : Fault} :
    e.eval env = .error fault ↔ e.verdict env.knows = .error fault := by
  rw [← map_eval, map_eq_error_iff]

theorem exists_eval_iff : (∃ value, e.eval env = .ok value) ↔ e.verdict env.knows = .ok () := by
  rw [← map_eval, map_eq_ok_iff]
  simp

end Expression

namespace TruthTable

variable {vars : Variables} {e : Expression}

open Assignment Expression

/-- An expression of few variables is tabulated if it has a value in the first row. -/
theorem exists_build_iff (small : vars.size ≤ maxVariables) :
    (∃ table, build vars (some e) = .ok table) ↔ ∃ value, e.eval (.ofIndex vars 0) = .ok value := by
  constructor
  · rintro ⟨table, built⟩
    obtain ⟨output, _, valued⟩ := outputs_build built (Nat.two_pow_pos vars.size)
    exact ⟨output, valued⟩
  · intro first
    refine exists_build small fun index _ => ?_
    rw [exists_eval_iff, knows_ofIndex vars 0 index] at first
    exact exists_eval_iff.mpr first

/-- If the first row fails, the table fails for the same cause. -/
theorem build_of_eval {fault : Fault} (small : vars.size ≤ maxVariables)
    (fails : e.eval (.ofIndex vars 0) = .error fault) : build vars (some e) = .error fault := by
  obtain ⟨last, rows⟩ := Nat.exists_eq_add_one.mpr (Nat.two_pow_pos vars.size)
  have stops : ([] ++ 0 :: (List.range last).map Nat.succ).mapM (outputAt vars (some e)) =
      .error fault := mapM_eq_error nofun fails
  rw [build, if_neg (Nat.not_lt.mpr small), Minterm.count_eq, rows, List.range_succ_eq_map]
  exact congrArg (Except.map (TruthTable.mk vars)) stops

theorem build_eq_error_iff {fault : Fault} (small : vars.size ≤ maxVariables) :
    build vars (some e) = .error fault ↔ e.eval (.ofIndex vars 0) = .error fault := by
  refine ⟨fun failure => ?_, build_of_eval small⟩
  cases first : e.eval (.ofIndex vars 0) with
  | ok value =>
    obtain ⟨table, built⟩ := (exists_build_iff small).mpr ⟨value, first⟩
    rw [built] at failure
    cases failure
  | error cause =>
    obtain rfl := Except.error.inj ((build_of_eval small first).symm.trans failure)
    rfl

theorem length_rows {expression : Option Expression} {table : TruthTable}
    (built : build vars expression = .ok table) : table.rows.length = 2 ^ vars.size := by
  rw [rows, List.length_mapIdx, length_outputs built]

end TruthTable

namespace Expression

/-- In two assignments that give values to the same letters, whatever values, an expression either has a
value or fails for the same cause. So there is a table of it for a list of few variables if and only if
its first row has a value; the table then has a row for each index, and otherwise its fault is that of
the first row. -/
theorem eval_uniform (e : Expression) :
    (∀ env other : Assignment,
      (∀ name, (env.get? name).isSome = (other.get? name).isSome) →
      ((∃ a, e.eval env = .ok a) ∧ ∃ b, e.eval other = .ok b) ∨
        ∃ fault, e.eval env = .error fault ∧ e.eval other = .error fault) ∧
    ∀ vars : Variables, vars.size ≤ TruthTable.maxVariables →
      ((∃ table, TruthTable.build vars (some e) = .ok table) ↔
        ∃ value, e.eval (.ofIndex vars 0) = .ok value) ∧
      (∀ table, TruthTable.build vars (some e) = .ok table →
        table.rows.length = 2 ^ vars.size) ∧
      ∀ fault, TruthTable.build vars (some e) = .error fault ↔
        e.eval (.ofIndex vars 0) = .error fault := by
  constructor
  · intro env other same
    have known : env.knows = other.knows := funext same
    cases first : e.eval env with
    | ok a =>
      have valued := exists_eval_iff.mp ⟨a, first⟩
      rw [known] at valued
      exact .inl ⟨⟨a, rfl⟩, exists_eval_iff.mpr valued⟩
    | error fault =>
      have failing := eval_eq_error_iff.mp first
      rw [known] at failing
      exact .inr ⟨fault, rfl, eval_eq_error_iff.mpr failing⟩
  · intro vars small
    exact ⟨TruthTable.exists_build_iff small, fun _ => TruthTable.length_rows,
      fun _ => TruthTable.build_eq_error_iff small⟩

theorem eval_uniform_short :
    let e : Expression := ⟨[.var 'b', .operator (.not .after), .operator (.binary .xor), .var 'C']⟩
    let env := Assignment.ofPairs [('A', true), ('B', false)]
    let other := Assignment.ofPairs [('b', true), ('7', true), ('a', false), ('B', true)]
    let vars : Variables := ⟨['B', 'A']⟩
    (∀ name, (env.get? name).isSome = (other.get? name).isSome) ∧
    vars.size ≤ TruthTable.maxVariables ∧
    e.eval env = .error .missingOperand ∧ e.eval other = .error .missingOperand ∧
    (¬ ∃ table, TruthTable.build vars (some e) = .ok table) ∧
    TruthTable.build vars (some e) = .error .missingOperand := by
  intro e env other vars
  have same : ∀ name, (env.get? name).isSome = (other.get? name).isSome := by
    intro name
    have digit : Letter.slot? '7' = none := by decide
    have small : Letter.slot? 'a' = Letter.slot? 'A' ∧ Letter.slot? 'b' = Letter.slot? 'B' := by
      decide
    rw [Bool.eq_iff_iff]
    refine Assignment.knows_ofPairs_iff.trans (Iff.trans ?_ Assignment.knows_ofPairs_iff.symm)
    simp only [List.map_cons, List.map_nil, List.exists_mem_cons_iff, digit, small,
      List.not_mem_nil, false_and, exists_false, or_false, Option.isSome_none, Bool.false_eq_true,
      false_or]
    tauto
  have few : vars.size ≤ TruthTable.maxVariables := by decide
  have missing : e.eval env = .error .missingOperand := rfl
  have first : e.eval (.ofIndex vars 0) = .error .missingOperand := rfl
  obtain ⟨alike, rows⟩ := eval_uniform e
  obtain ⟨built, _, refused⟩ := rows vars few
  refine ⟨same, few, missing, ?_, ?_, (refused _).mpr first⟩
  · rcases alike env other same with ⟨⟨a, valued⟩, _⟩ | ⟨fault, here, there⟩
    · cases missing.symm.trans valued
    · cases missing.symm.trans here
      exact there
  · rw [built]
    rintro ⟨value, valued⟩
    cases first.symm.trans valued

end Expression

end Switching
