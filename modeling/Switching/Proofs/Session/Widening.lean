import Switching.Proofs.Minimized.Widening
import Switching.Proofs.Session.Reindexing

/-! # Adding variables to a session

When variables are added to a session, without changing the order of the old ones, the cell at an
index is the old cell at its projection. So the session is minimized to the same outcome as before
(`minimize_withVariables`).
-/

namespace Switching

open Minterm

variable {kept : List Bool} {vars old : Variables} {index : Nat}

namespace Variables

theorem length_keeps (old vars : Variables) : (keeps old vars).length = vars.size :=
  List.length_map ..

theorem keeps_of_includes (upper : ∀ name ∈ old.names, name.isUpper = true)
    (includes : vars.Includes old) (narrow : vars.size < wordSize) :
    Minimized.Keeps (keeps old vars) vars old where
  size_eq := (length_keeps old vars).symm
  names_eq := pick_names upper includes
  narrow := length_keeps old vars ▸ narrow

/-- An old variable stands alone: no other character names its letter. -/
theorem Includes.filter_slot? {name : Char} (includes : vars.Includes old) (lettered : old.Lettered)
    (member : name ∈ old.names) :
    vars.names.filter (fun other => Letter.slot? other = Letter.slot? name) = [name] := by
  have upper := lettered.2 name member
  have named (other : Char) : decide (Letter.slot? other = Letter.slot? name) =
      (other.toUpper == name && decide (other.toUpper ∈ old.names)) := by
    rw [Bool.eq_iff_iff, decide_eq_true_iff, slot?_eq_iff_of_isUpper upper, Bool.and_eq_true,
      beq_iff_eq, decide_eq_true_iff]
    exact ⟨fun same => ⟨same, same ▸ member⟩, And.left⟩
  calc vars.names.filter (fun other => Letter.slot? other = Letter.slot? name)
    _ = vars.names.filter fun other => other.toUpper == name && decide (other.toUpper ∈ old.names) :=
        List.filter_congr fun other _ => named other
    _ = (vars.names.filter (·.toUpper ∈ old.names)).filter (·.toUpper == name) :=
        List.filter_filter.symm
    _ = old.names.filter (·.toUpper == name) := by rw [includes]
    _ = old.names.filter (· == name) :=
        List.filter_congr fun other listed => by rw [toUpper_of_isUpper (lettered.2 other listed)]
    _ = [name] := Assignment.filter_beq_eq_singleton lettered.1 member

/-- An old variable has the value of its bit. -/
theorem Includes.get?_ofIndex {name : Char} {position : Nat} (includes : vars.Includes old)
    (lettered : old.Lettered) (member : name ∈ old.names) (index : Nat)
    (listed : vars.names[position]? = some name) :
    (Assignment.ofIndex vars index).get? name = some (bitAt index vars.size position) := by
  have isLetter := isSome_slot?_iff.mpr (isAlpha_of_isUpper (lettered.2 name member))
  exact Assignment.get?_ofIndex_of_alone index isLetter (includes.filter_slot? lettered member) listed

/-- An index is projected to the one that the values of the old variables spell. -/
theorem project_keeps (lettered : old.Lettered) (includes : vars.Includes old) (index : Nat) :
    project (keeps old vars) index =
      value (old.names.map fun name => ((Assignment.ofIndex vars index).get? name).getD false) := by
  rw [project, length_keeps, ← pick_names lettered.2 includes, map_pick]
  refine congrArg value (pick_congr (by rw [length_bits, List.length_map, size]) fun position kept => ?_)
  rw [keeps, List.getElem?_map, Option.map_eq_some_iff] at kept
  obtain ⟨name, listed, old⟩ := kept
  have inside : position < vars.size := (List.getElem?_eq_some_iff.mp listed).1
  rw [List.getElem?_map, listed, Option.map_some,
    includes.get?_ofIndex lettered (of_decide_eq_true old) index listed, Option.getD_some,
    List.getElem?_eq_getElem (by rwa [length_bits]), getElem_bits]

end Variables

namespace Session

variable {s wide next : Session} {m n : Minimized}

/-- The same function over more variables. -/
structure Widens (kept : List Bool) (s wide : Session) : Prop where
  keeps : Minimized.Keeps kept wide.vars s.vars
  small : s.Sized
  large : wide.Sized
  cell?_eq : ∀ index < 2 ^ kept.length, wide.cell? index = s.cell? (project kept index)

namespace Widens

variable (widens : Widens kept s wide)

include widens

theorem indicesOf_eq (value : Cell) : wide.indicesOf value = lift kept (s.indicesOf value) := by
  ext index
  rw [mem_lift, mem_indicesOf, mem_indicesOf]
  constructor
  · intro found
    have inside : index < 2 ^ kept.length := widens.keeps.size_eq ▸ widens.large.lt_of_cell? found
    exact ⟨inside, widens.cell?_eq index inside ▸ found⟩
  · rintro ⟨inside, found⟩
    rwa [widens.cell?_eq index inside]

theorem minterms_eq : wide.terms.minterms = lift kept s.terms.minterms :=
  widens.indicesOf_eq .one

theorem dontcares_eq : wide.terms.dontcares = lift kept s.terms.dontcares :=
  widens.indicesOf_eq .dontCare

theorem complement_eq :
    wide.terms.complement wide.vars.size = lift kept (s.terms.complement s.vars.size) := by
  ext index
  rw [mem_lift, TermList.mem_complement, TermList.mem_complement, count_eq, count_eq,
    widens.minterms_eq, widens.dontcares_eq, mem_lift, mem_lift, widens.keeps.size_eq,
    widens.keeps.size_vars]
  have bound := project_lt kept index
  tauto

theorem isEmpty_minterms_eq : wide.terms.minterms.isEmpty = s.terms.minterms.isEmpty := by
  rw [Bool.eq_iff_iff, isEmpty_minterms_iff, isEmpty_minterms_iff]
  constructor
  · intro absent index one
    have inside : index < 2 ^ kept.count true := widens.keeps.size_vars ▸ widens.small.lt_of_cell? one
    apply absent (embed kept index)
    rw [widens.cell?_eq _ (embed_lt kept index), project_embed inside, one]
  · intro absent index one
    have inside : index < 2 ^ kept.length := widens.keeps.size_eq ▸ widens.large.lt_of_cell? one
    exact absent _ (widens.cell?_eq index inside ▸ one)

/-- The outcome is the same. -/
theorem outcome (form : Form) : (s.outcome form).Widens kept (wide.outcome form) := by
  cases form with
  | sop =>
    simp only [Session.outcome, widens.minterms_eq, widens.dontcares_eq]
    exact Minimized.widens_minimize widens.keeps _ _ .sop
  | pos =>
    simp only [Session.outcome, widens.isEmpty_minterms_eq, widens.complement_eq,
      widens.dontcares_eq]
    split
    · exact Minimized.widens_ofConstant kept .pos s.vars wide.vars false
    · exact Minimized.widens_minimize widens.keeps _ _ .pos

end Widens

theorem widens_withVariables (sized : s.Sized) (lettered : s.vars.Lettered)
    (includes : vars.Includes s.vars) (narrow : vars.size < wordSize)
    (changed : s.withVariables vars = .ok next) :
    Widens (Variables.keeps s.vars vars) s next where
  keeps := by
    rw [vars_withVariables changed]
    exact Variables.keeps_of_includes lettered.2 includes narrow
  small := sized
  large := sized_withVariables changed
  cell?_eq index inside := by
    rw [Variables.length_keeps] at inside
    rw [cell?_withVariables sized changed inside, sourceIndex_eq lettered,
      Variables.project_keeps lettered includes]

/-- Adding characters to the variables of a session, wherever they are inserted between the old ones,
changes nothing in what it is minimized to if none of them names an old variable in the other case: the
text, the positions of the essential and of the selected primes, and the primes in their order, which are
free at the added positions. There are fewer variables than bits in an index, as the number of cells does
not fit a word otherwise. -/
theorem minimize_withVariables (reachable : s.Reachable) (lettered : s.vars.Lettered)
    (includes : vars.Includes s.vars) (narrow : vars.size < wordSize)
    (changed : s.withVariables vars = .ok next)
    (small : s.minimize = .ok m) (large : next.minimize = .ok n) :
    n.text = m.text ∧
    n.primes.toList =
      m.primes.toList.map (fun c => .ofPattern (spread none (Variables.keeps s.vars vars) c.pattern)) ∧
    n.essentials = m.essentials ∧ n.chosen = m.chosen := by
  obtain ⟨_, rfl⟩ := minimize_eq_ok_iff.mp small
  obtain ⟨_, rfl⟩ := minimize_eq_ok_iff.mp large
  have form : next.form = s.form := by
    obtain ⟨_, rfl⟩ := withVariables_eq_ok_iff.mp changed
    rfl
  have widens := widens_withVariables reachable.sized lettered includes narrow changed
  rw [form]
  obtain ⟨text, primes, essentials, chosen⟩ := widens.outcome s.form
  exact ⟨text, primes, essentials, chosen⟩

theorem minimize_withVariables_inserted :
    let s : Session := ⟨⟨['A', 'C']⟩, .sop, [.zero, .one, .dontCare, .one], .standard⟩
    let next : Session := ⟨⟨['A', 'b', 'C']⟩, .sop,
      [.zero, .one, .zero, .one, .dontCare, .one, .dontCare, .one], .standard⟩
    let m := s.outcome .sop
    let n := next.outcome .sop
    s.Reachable ∧ s.vars.Lettered ∧ next.vars.Includes s.vars ∧ next.vars.size < wordSize ∧
    s.withVariables next.vars = .ok next ∧ s.minimize = .ok m ∧ next.minimize = .ok n ∧
    n.text = m.text ∧
    n.primes.toList = m.primes.toList.map
      (fun c => .ofPattern (spread none (Variables.keeps s.vars next.vars) c.pattern)) ∧
    n.essentials = m.essentials ∧ n.chosen = m.chosen := by
  intro s next m n
  have loaded : ofTerms s.vars ⟨.ofList [1, 3], .ofList [2]⟩ s.limits = .ok s := rfl
  have lettered : s.vars.Lettered := by decide
  have includes : next.vars.Includes s.vars := by simp [next, s, Variables.Includes]
  have narrow : next.vars.size < wordSize := by decide
  have changed : s.withVariables next.vars = .ok next := rfl
  have small : s.minimize = .ok m := rfl
  have large : next.minimize = .ok n := rfl
  exact ⟨.ofTerms loaded, lettered, includes, narrow, changed, small, large,
    minimize_withVariables (.ofTerms loaded) lettered includes narrow changed small large⟩

/-- The variables of an expression that was put together by hand can name a letter in both cases. The
letter has the value of the last of them, so that the text of a session changes when they replace its
own variable, which stands first among them. -/
theorem minimize_withVariables_repeated :
    let s : Session := ⟨⟨['A']⟩, .sop, [.zero, .one], .standard⟩
    let e : Expression := ⟨[.var 'A', .var 'a', .operator (.binary .and)]⟩
    let next : Session := ⟨e.vars, .sop, [.zero, .one, .zero, .one], .standard⟩
    s.Reachable ∧ s.vars.Lettered ∧ s.vars.names.Sublist e.vars.names ∧
    s.withVariables e.vars = .ok next ∧
    ∃ m n, s.minimize = .ok m ∧ next.minimize = .ok n ∧ m.text = "A" ∧ n.text = "a" := by
  intro s e next
  have loaded : ofTerms s.vars ⟨.ofList [1], .ofList []⟩ s.limits = .ok s := rfl
  refine ⟨.ofTerms loaded, by decide, by decide, rfl, s.outcome .sop, next.outcome .sop, rfl, rfl, ?_, ?_⟩
  · decide +kernel
  · decide +kernel

end Session

end Switching
