import Switching.Proofs.Chart.Essentials
import Switching.Proofs.PrimeSearch.Widening

/-! # Covers over more variables

A chart over more variables has the same essential cubes in the same order, and the selection takes
the same steps: every cube covers equally many times as much of what remains, so that the largest
number belongs to the same cubes.
-/

namespace Switching

open Minterm

variable {kept : List Bool} {few wide : CubeList} {minterms : IndexSet} {index : Nat}

namespace CubeList.Widens

theorem get?_eq (widens : Widens kept few wide) (position : Nat) :
    wide.get? position = (few.get? position).map (Cube.widen kept) := by
  rw [get?, get?, widens.toList_eq, List.getElem?_map]

/-- A cube covers an index when it covered the projection. -/
theorem any_covers_eq (widens : Widens kept few wide) (narrow : kept.length < wordSize)
    (small : index < 2 ^ kept.length) (position : Nat) :
    (wide.get? position).any (·.covers index) =
      (few.get? position).any (·.covers (project kept index)) := by
  rw [widens.get?_eq]
  cases listed : few.get? position with
  | none => rfl
  | some c => exact Cube.covers_widen narrow (widens.width_eq c (List.mem_of_getElem? listed)) small

theorem covering_eq (widens : Widens kept few wide) (narrow : kept.length < wordSize)
    (small : index < 2 ^ kept.length) : wide.covering index = few.covering (project kept index) := by
  rw [covering, covering, positions, positions, widens.toList_eq, List.zipIdx_map, List.filterMap_map]
  refine List.filterMap_congr fun entry member => ?_
  have listed : entry.1 ∈ few := (List.mem_zipIdx' member).2 ▸ List.getElem_mem _
  simp only [Function.comp_apply, Prod.map_fst, Prod.map_snd, id_eq,
    Cube.covers_widen narrow (widens.width_eq _ listed) small]

end CubeList.Widens

/-! ## Essential cubes -/

namespace Chart

theorem EssentialBefore.widen {a b : Nat} (before : EssentialBefore few minterms a b)
    (widens : few.Widens kept wide) (narrow : kept.length < wordSize)
    (inside : ∀ m ∈ minterms, m < 2 ^ kept.count true) :
    EssentialBefore wide (lift kept minterms) a b := by
  obtain ⟨m, member, only, first⟩ := before
  have small := inside m member
  have back := project_embed small
  refine ⟨embed kept m, (embed_mem_lift small).mpr member, ?_, fun other listed taken => ?_⟩
  · rwa [widens.covering_eq narrow (embed_lt kept m), back]
  · obtain ⟨smallOther, listed⟩ := mem_lift.mp listed
    rw [widens.covering_eq narrow smallOther] at taken
    have less := first _ listed taken
    refine (embed_le small smallOther (Nat.le_of_lt less)).lt_of_ne fun same => ?_
    rw [← same, back] at less
    exact Nat.lt_irrefl m less

theorem essentials_widen (widens : few.Widens kept wide) (narrow : kept.length < wordSize)
    (inside : ∀ m ∈ minterms, m < 2 ^ kept.count true) :
    (build wide (lift kept minterms)).essentials = (build few minterms).essentials := by
  have ordered : (build few minterms).essentials.Pairwise
      (EssentialBefore wide (lift kept minterms)) :=
    (pairwise_essentials few minterms).imp fun before => before.widen widens narrow inside
  apply eq_of_pairwise (fun _ _ => EssentialBefore.asymm) (pairwise_essentials _ _) ordered
  intro position
  rw [mem_essentials_build, mem_essentials_build]
  constructor
  · rintro ⟨index, member, only⟩
    obtain ⟨small, member⟩ := mem_lift.mp member
    exact ⟨_, member, (widens.covering_eq narrow small).symm.trans only⟩
  · rintro ⟨m, member, only⟩
    have small := inside m member
    refine ⟨embed kept m, (embed_mem_lift small).mpr member, ?_⟩
    rwa [widens.covering_eq narrow (embed_lt kept m), project_embed small]

end Chart

/-! ## The selection -/

namespace Cover

variable {chosen remaining result : List Nat} {position : Nat}

/-- What remains over all variables: the indices whose projections remain, each projection as often
as the added variables have values. -/
structure Scaled (kept : List Bool) (coarse fine : List Nat) : Prop where
  inside : ∀ index ∈ fine, index < 2 ^ kept.length
  countP_eq (test : Nat → Bool) : fine.countP (fun index => test (project kept index)) =
    2 ^ kept.count false * coarse.countP test

theorem scaled_lift (inside : ∀ m ∈ minterms, m < 2 ^ kept.count true) :
    Scaled kept minterms.toList (lift kept minterms).toList :=
  ⟨fun _ member => (mem_lift.mp member).1, countP_lift inside⟩

theorem Scaled.uncovered {fine : List Nat} (scaled : Scaled kept remaining fine)
    (widens : few.Widens kept wide) (narrow : kept.length < wordSize) (chosen : List Nat) :
    Scaled kept (Cover.uncovered Cube.covers few chosen remaining)
      (Cover.uncovered Cube.covers wide chosen fine) := by
  let missed (m : Nat) : Bool :=
    !chosen.any fun position => (few.get? position).any (·.covers m)
  have fine_eq : Cover.uncovered Cube.covers wide chosen fine =
      fine.filter fun index => missed (project kept index) := by
    refine List.filter_congr fun index member => ?_
    simp only [missed, widens.any_covers_eq narrow (scaled.inside index member)]
  rw [fine_eq]
  refine ⟨fun index member => scaled.inside index (List.mem_filter.mp member).1, fun test => ?_⟩
  rw [List.countP_filter, Cover.uncovered, List.countP_filter]
  exact scaled.countP_eq fun m => test m && missed m

theorem Scaled.countP_covers {fine : List Nat} {c : Cube} (scaled : Scaled kept remaining fine)
    (narrow : kept.length < wordSize) (fits : c.width = kept.count true) :
    fine.countP (c.widen kept).covers = 2 ^ kept.count false * remaining.countP c.covers := by
  rw [← scaled.countP_eq c.covers]
  refine List.countP_congr fun index member => ?_
  rw [Cube.covers_widen narrow fits (scaled.inside index member)]

/-- The next cube is the same. -/
theorem IsNext.widen {fine : List Nat} (next : IsNext Cube.covers few chosen remaining position)
    (scaled : Scaled kept remaining fine) (widens : few.Widens kept wide)
    (narrow : kept.length < wordSize) : IsNext Cube.covers wide chosen fine position := by
  obtain ⟨fresh, c, listed, positive, most⟩ := next
  have scale : 0 < 2 ^ kept.count false := Nat.two_pow_pos _
  have count {position : Nat} {c : Cube} (listed : few.get? position = some c) :=
    scaled.countP_covers narrow (widens.width_eq c (List.mem_of_getElem? listed))
  refine ⟨fresh, c.widen kept, by rw [widens.get?_eq, listed, Option.map_some], ?_, ?_⟩
  · rw [count listed]
    exact Nat.mul_pos scale positive
  · intro other d found freshOther
    rw [widens.get?_eq] at found
    obtain ⟨e, listedOther, rfl⟩ := Option.map_eq_some_iff.mp found
    rw [count listed, count listedOther]
    rcases most other e listedOther freshOther with fewer | ⟨same, first⟩
    · exact .inl (Nat.mul_lt_mul_of_pos_left fewer scale)
    · exact .inr ⟨congrArg _ same, first⟩

/-- A selection takes the same steps over more variables. -/
theorem Run.widen {fine : List Nat} (run : Run Cube.covers few chosen remaining result)
    (scaled : Scaled kept remaining fine) (widens : few.Widens kept wide)
    (narrow : kept.length < wordSize) : Run Cube.covers wide chosen fine result := by
  induction run generalizing fine with
  | done chosen =>
    have empty : fine.countP (fun _ => true) = 0 := scaled.countP_eq fun _ => true
    rw [List.countP_true] at empty
    obtain rfl := List.eq_nil_of_length_eq_zero empty
    exact .done chosen
  | add next _ ih =>
    exact .add (next.widen scaled widens narrow) (ih (scaled.uncovered widens narrow _))

end Cover

end Switching
