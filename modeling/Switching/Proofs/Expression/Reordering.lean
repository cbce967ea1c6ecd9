import Mathlib
import Switching.Expression.Parser
import Switching.Proofs.Outcome

/-! # Putting tokens into postfix order

Whatever its input, the reordering passes on every token but the parentheses exactly once
(`perm_reorder`), and it fails only for parentheses: at the first one that closes nothing, or else at
the end if one is still open (`settles_reorder`).
-/

namespace Switching.Expression

/-- Whether a token only groups others. -/
def isParen : Token → Bool
  | .openParen | .closeParen => true
  | _ => false

/-- The tokens that wait to be passed on, in the order in which they will be. -/
abbrev waitingTokens (held : List Held) : List Token :=
  held.filterMap Held.operator?

theorem isParen_eq_false {token : Token} (notOpen : token ≠ .openParen)
    (notClose : token ≠ .closeParen) : isParen token = false := by
  cases token with
  | openParen => exact absurd rfl notOpen
  | closeParen => exact absurd rfl notClose
  | _ => rfl

@[simp] theorem Held.operator?_operator (op : Operator) :
    (Held.operator op).operator? = some (.operator op) := rfl

/-- The innermost open parenthesis stands behind the operators held back since then. -/
theorem eq_of_dropWhile_paren {held outside : List Held} {first : Held}
    (found : held.dropWhile (· ≠ .paren) = first :: outside) :
    held = held.takeWhile (· ≠ .paren) ++ .paren :: outside := by
  have innermost : first = .paren := by
    have head := List.head?_dropWhile_not (· ≠ .paren) held
    rw [found] at head
    simpa using head
  calc
    held = held.takeWhile (· ≠ .paren) ++ held.dropWhile (· ≠ .paren) :=
      List.takeWhile_append_dropWhile.symm
    _ = _ := by rw [found, innermost]

/-- All tokens but the parentheses are passed on, each of them once. -/
theorem perm_reorder {held : List Held} {tokens out : List Token}
    (success : reorder held tokens = .ok out) :
    out.Perm (waitingTokens held ++ tokens.filter (!isParen ·)) := by
  fun_induction reorder held tokens generalizing out with
  | case1 held unclosed => cases success
  | case2 held closed =>
    cases success
    simp
  | case3 held rest ih => exact ih success
  | case4 held rest none => cases success
  | case5 held rest first outside found ih =>
    obtain ⟨others, inner, rfl⟩ := map_eq_ok_iff.mp success
    have whole : waitingTokens held =
        waitingTokens (held.takeWhile (· ≠ .paren)) ++ waitingTokens outside :=
      (congrArg waitingTokens (eq_of_dropWhile_paren found)).trans List.filterMap_append
    rw [whole, List.append_assoc]
    exact (ih inner).append_left _
  | case6 held op rest before ih => exact (ih success).trans List.perm_middle.symm
  | case7 held op rest after ih =>
    obtain ⟨others, inner, rfl⟩ := map_eq_ok_iff.mp success
    exact ((ih inner).cons _).trans List.perm_middle.symm
  | case8 held op rest between ih =>
    obtain ⟨others, inner, rfl⟩ := map_eq_ok_iff.mp success
    have whole : waitingTokens held = waitingTokens (held.takeWhile (·.yieldsTo op)) ++
        waitingTokens (held.dropWhile (·.yieldsTo op)) := by
      rw [← List.filterMap_append, List.takeWhile_append_dropWhile]
    rw [whole, List.append_assoc]
    exact ((ih inner).trans List.perm_middle.symm).append_left _
  | case9 held token rest notOpen notClose notOperator ih =>
    obtain ⟨others, inner, rfl⟩ := map_eq_ok_iff.mp success
    rw [List.filter_cons, isParen_eq_false notOpen notClose]
    exact ((ih inner).cons _).trans List.perm_middle.symm

/-- The tokens of an expression that was read, with the conjunctions that were filled in. -/
theorem perm_ofInfix {tokens : List Token} {e : Expression} (success : ofInfix tokens = .ok e) :
    e.tokens.Perm ((insertProducts tokens).filter (!isParen ·)) := by
  obtain ⟨out, reordered, rfl⟩ := map_eq_ok_iff.mp success
  exact perm_reorder reordered

/-- No parenthesis is left in an expression that was read. -/
theorem isParen_of_ofInfix {tokens : List Token} {e : Expression} {token : Token}
    (success : ofInfix tokens = .ok e) (member : token ∈ e.tokens) : isParen token = false := by
  have kept := (List.mem_filter.mp ((perm_ofInfix success).mem_iff.mp member)).2
  simpa using kept

/-! ## Parentheses -/

/-- The number of parentheses that are open after some tokens, `depth` being open before them; none
if one is closed that was not open. -/
def openAfter? : Nat → List Token → Option Nat
  | depth, [] => some depth
  | depth, .openParen :: rest => openAfter? (depth + 1) rest
  | 0, .closeParen :: _ => none
  | depth + 1, .closeParen :: rest => openAfter? depth rest
  | depth, _ :: rest => openAfter? depth rest

theorem openAfter?_cons {token : Token} (plain : isParen token = false) (depth : Nat)
    (rest : List Token) : openAfter? depth (token :: rest) = openAfter? depth rest := by
  cases token <;> first | rfl | cases plain

/-- The outcome of the reordering for a number of parentheses that are open in the end. -/
def Settles (outcome : Except Fault (List Token)) : Option Nat → Prop
  | none => outcome = .error .unmatchedClose
  | some 0 => ∃ out, outcome = .ok out
  | some (_ + 1) => outcome = .error .unclosedParen

theorem Settles.map {outcome : Except Fault (List Token)} {depth : Option Nat}
    (settles : Settles outcome depth) (f : List Token → List Token) :
    Settles (outcome.map f) depth := by
  match depth, settles with
  | none, settles => exact congrArg (Except.map f) settles
  | some 0, ⟨out, settles⟩ => exact ⟨f out, congrArg (Except.map f) settles⟩
  | some (_ + 1), settles => exact congrArg (Except.map f) settles

/-- A closing parenthesis lets go of one that is open. -/
theorem count_paren_of_dropWhile {held outside : List Held} {first : Held}
    (found : held.dropWhile (· ≠ .paren) = first :: outside) :
    held.count .paren = outside.count .paren + 1 := by
  have before : (held.takeWhile (· ≠ .paren)).count .paren = 0 := by
    refine List.count_eq_zero.mpr fun member => ?_
    simpa using List.mem_takeWhile_imp member
  have whole := congrArg (List.count .paren) (eq_of_dropWhile_paren found)
  rw [List.count_append, before, List.count_cons_self] at whole
  omega

/-- A connective lets go of none. -/
theorem count_paren_dropWhile (held : List Held) (op : Operator) :
    (held.dropWhile (·.yieldsTo op)).count .paren = held.count .paren := by
  induction held with
  | nil => rfl
  | cons first held ih =>
    cases first with
    | paren => rfl
    | operator waiting =>
      by_cases yields : waiting.yieldsTo op = true
      · have passed : (Held.operator waiting).yieldsTo op = true := yields
        simp [passed, ih]
      · have kept : (Held.operator waiting).yieldsTo op = false := Bool.eq_false_iff.mpr yields
        simp [kept]

/-- Only the parentheses decide whether the reordering succeeds. -/
theorem settles_reorder (held : List Held) (tokens : List Token) :
    Settles (reorder held tokens) (openAfter? (held.count .paren) tokens) := by
  fun_induction reorder held tokens with
  | case1 held unclosed =>
    obtain ⟨depth, positive⟩ := Nat.exists_eq_succ_of_ne_zero
      (Nat.ne_of_gt (List.count_pos_iff.mpr unclosed))
    rw [positive]
    rfl
  | case2 held closed =>
    rw [List.count_eq_zero.mpr closed]
    exact ⟨_, rfl⟩
  | case3 held rest ih => simpa [openAfter?] using ih
  | case4 held rest none =>
    have closed : held.count .paren = 0 := by
      refine List.count_eq_zero.mpr fun member => ?_
      simpa using List.dropWhile_eq_nil_iff.mp none _ member
    rw [closed]
    rfl
  | case5 held rest first outside found ih =>
    rw [count_paren_of_dropWhile found]
    exact ih.map _
  | case6 held op rest before ih => simpa [openAfter?] using ih
  | case7 held op rest after ih => exact ih.map _
  | case8 held op rest between ih =>
    rw [List.count_cons_of_ne (by simp), count_paren_dropWhile] at ih
    exact ih.map _
  | case9 held token rest notOpen notClose notOperator ih =>
    rw [openAfter?_cons (isParen_eq_false notOpen notClose)]
    exact ih.map _

end Switching.Expression
