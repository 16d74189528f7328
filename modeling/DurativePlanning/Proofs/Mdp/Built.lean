import DurativePlanning.Mdp.Basic
import DurativePlanning.Proofs.Exact
import DurativePlanning.Proofs.Problem.Converted

/-!
# Processes That Were Built

Reading a problem as a process succeeds when the discount and the laws pass their checks, and then
the process holds the actions of the problem. This module inverts the two ways of building, once
for all later modules.

* `Mdp.Built`: the processes that some problem is read as.
* `Mdp.ofConverted_eq_ok_iff`, `Mdp.ofCombination_eq_ok_iff`: when building succeeds, and with what.
* `Mdp.kind?_ofConverted`, `Mdp.kind?_ofCombination`: what each decision does.
* `Mdp.Built.checked`: the laws of a built process have passed the check.
* `Mdp.check_eq_ok_iff`: which problems pass the check.
* `Mdp.Built.laws`: over exact numbers every law of a built process is nearly a distribution.
-/

namespace DurativePlanning

namespace Mdp

section

variable {α : Type} [Arithmetic α]

/-- The process of a converted problem. -/
def splitProcess (p : ConvertedProblem α) (discount : α) : Mdp α :=
  ⟨.split, p.core, discount, p.actions.toArray, #[], (splitActions p.actions).toArray⟩

/-- The process of a combination problem. -/
def combinationProcess (p : CombinationProblem α) (discount : α) : Mdp α :=
  ⟨.combination, p.core, discount, p.singles.toArray, p.combinations.toArray,
    (combinationActions p.singles p.combinations).toArray⟩

/-- The processes that `ofConverted` and `ofCombination` build. -/
inductive Built : Mdp α → Prop
  | split {p : ConvertedProblem α} {discount : α} {m : Mdp α} :
      ofConverted p discount = .ok m → Built m
  | combination {p : CombinationProblem α} {discount : α} {m : Mdp α} :
      ofCombination p discount = .ok m → Built m

/-- `ofConverted` succeeds exactly when `check` does, and then gives `splitProcess`. -/
theorem ofConverted_eq_ok_iff {p : ConvertedProblem α} {discount : α} {m : Mdp α} :
    ofConverted p discount = .ok m ↔
      check p.actions discount = .ok () ∧ m = splitProcess p discount := by
  rw [ofConverted, bind_eq_ok_iff]
  exact ⟨fun ⟨(), hcheck, hm⟩ => ⟨hcheck, (Except.ok.inj hm).symm⟩,
    fun ⟨hcheck, hm⟩ => ⟨(), hcheck, congrArg Except.ok hm.symm⟩⟩

/-- `ofCombination` succeeds exactly when `check` does, and then gives `combinationProcess`. -/
theorem ofCombination_eq_ok_iff {p : CombinationProblem α} {discount : α} {m : Mdp α} :
    ofCombination p discount = .ok m ↔
      check p.singles discount = .ok () ∧ m = combinationProcess p discount := by
  rw [ofCombination, bind_eq_ok_iff]
  exact ⟨fun ⟨(), hcheck, hm⟩ => ⟨hcheck, (Except.ok.inj hm).symm⟩,
    fun ⟨hcheck, hm⟩ => ⟨(), hcheck, congrArg Except.ok hm.symm⟩⟩

/-- What each decision of split mode does: below the number of actions `startOf` one of them, at
this number `wait`, and none after it. -/
theorem kind?_ofConverted {p : ConvertedProblem α} {discount : α} {m : Mdp α}
    (h : ofConverted p discount = .ok m) (a : ℕ) :
    m.kind? a =
      if a < p.actions.length then (p.actions[a]?).map fun c => (startOf c a).2
      else if a = p.actions.length then some .wait else none := by
  obtain ⟨-, rfl⟩ := ofConverted_eq_ok_iff.mp h
  simp only [splitProcess, kind?, splitActions, List.getElem?_toArray, List.getElem?_append,
    List.length_mapIdx, List.getElem?_mapIdx]
  split
  · rw [Option.map_map]; rfl
  · next hlt =>
    by_cases he : a = p.actions.length
    · simp [he]
    · have hpos : a - p.actions.length ≠ 0 := by omega
      simp [he, hpos]

/-- What each decision of combination mode does: `single` for each action, and after them `combined`
for each combination. -/
theorem kind?_ofCombination {p : CombinationProblem α} {discount : α} {m : Mdp α}
    (h : ofCombination p discount = .ok m) (a : ℕ) :
    m.kind? a =
      if a < p.singles.length then some (.single a)
      else if a < p.singles.length + p.combinations.length then
        some (.combined (a - p.singles.length))
      else none := by
  obtain ⟨-, rfl⟩ := ofCombination_eq_ok_iff.mp h
  simp only [combinationProcess, kind?, combinationActions, List.getElem?_toArray,
    List.getElem?_append, List.length_mapIdx, List.getElem?_mapIdx]
  split
  · next hlt => simp [List.getElem?_eq_getElem hlt]
  · next hle =>
    by_cases hlt : a < p.singles.length + p.combinations.length
    · have hlt' : a - p.singles.length < p.combinations.length := by omega
      simp [hlt, List.getElem?_eq_getElem hlt']
    · have hge : p.combinations.length ≤ a - p.singles.length := by omega
      simp [hlt, List.getElem?_eq_none hge]

end

/-! ### The laws of a built process -/

/-- The laws of a built process have passed `checkLaws`. -/
theorem Built.checked {α : Type} [Arithmetic α] {m : Mdp α} (hm : m.Built) :
    ∀ a ∈ m.singles, checkLaws a = .ok () := by
  have hforM : ∀ {actions : List (ConvertedAction α)} {discount : α},
      check actions discount = .ok () → ∀ a ∈ actions, checkLaws a = .ok () := by
    intro actions discount h
    rw [check] at h
    split at h
    · split at h
      · next hchecked => exact forM_eq_ok_iff.mp hchecked
      · exact absurd h (by simp)
    · exact absurd h (by simp)
  cases hm with
  | split h =>
      obtain ⟨hcheck, rfl⟩ := ofConverted_eq_ok_iff.mp h
      simpa [splitProcess] using hforM hcheck
  | combination h =>
      obtain ⟨hcheck, rfl⟩ := ofCombination_eq_ok_iff.mp h
      simpa [combinationProcess] using hforM hcheck

section Exact

variable {K : Type} [Field K] [LinearOrder K] [IsStrictOrderedRing K] [FloorSemiring K]

/-- `checkLaws` passes some actions exactly when every law of their groups
`IsNearlyDistribution`. -/
theorem forM_checkLaws_eq_ok_iff {actions : List (ConvertedAction K)} :
    actions.forM checkLaws = .ok () ↔
      ∀ a ∈ actions, ∀ e ∈ a.events, ∀ g ∈ e.groups, g.law.IsNearlyDistribution := by
  simp only [forM_eq_ok_iff, checkLaws, Law.check_eq_ok_iff]
  refine forall₂_congr fun a _ => forall₂_congr fun e _ => ?_
  constructor
  · intro h g hg
    obtain ⟨i, hi, rfl⟩ := List.getElem_of_mem hg
    exact h (e.groups[i], i) (List.mem_zipIdx_iff_getElem?.mpr (List.getElem?_eq_getElem hi))
  · rintro h ⟨g, i⟩ hg
    exact h g (List.mem_of_getElem? (List.mem_zipIdx_iff_getElem?.mp hg))

/-- **What the check of a problem amounts to** over exact numbers: a discount between zero and one,
and laws that are `IsNearlyDistribution`. -/
theorem check_eq_ok_iff {actions : List (ConvertedAction K)} {discount : K} :
    check actions discount = .ok () ↔
      (0 ≤ discount ∧ discount ≤ 1) ∧
        ∀ a ∈ actions, ∀ e ∈ a.events, ∀ g ∈ e.groups, g.law.IsNearlyDistribution := by
  have hunit : Arithmetic.isUnit discount = true ↔ 0 ≤ discount ∧ discount ≤ 1 := by
    simp [Arithmetic.isUnit]
  rw [check, ← forM_checkLaws_eq_ok_iff, ← hunit]
  split
  · next hdiscount =>
    rw [and_iff_right hdiscount]
    cases actions.forM checkLaws <;> simp
  · next hdiscount => simp [hdiscount]

/-- `check` of a converted ground problem looks at the groups of the ground actions: conversion
leaves each of them on exactly one event. -/
theorem check_convert_eq_ok_iff {p : GroundProblem K} {discount : K} :
    check p.convert.actions discount = .ok () ↔
      (0 ≤ discount ∧ discount ≤ 1) ∧
        ∀ a ∈ p.actions, ∀ g ∈ a.groups, g.law.IsNearlyDistribution := by
  rw [check_eq_ok_iff, GroundProblem.convert, List.forall_mem_map]
  refine and_congr_right fun _ => forall₂_congr fun a _ => ?_
  exact ⟨fun h g hg => let ⟨e, he, hge⟩ := GroundAction.exists_event_iff.mpr hg; h e he g hge,
    fun h e he g hg => h g (GroundAction.exists_event_iff.mp ⟨e, he, hg⟩)⟩

/-- **The laws of a built process** are distributions up to the tolerance. -/
theorem Built.laws {m : Mdp K} (hm : m.Built) :
    ∀ a ∈ m.singles, ∀ e ∈ a.events, ∀ g ∈ e.groups, g.law.IsNearlyDistribution := by
  cases hm with
  | split h =>
      obtain ⟨hcheck, rfl⟩ := ofConverted_eq_ok_iff.mp h
      simpa [splitProcess] using (check_eq_ok_iff.mp hcheck).2
  | combination h =>
      obtain ⟨hcheck, rfl⟩ := ofCombination_eq_ok_iff.mp h
      simpa [combinationProcess] using (check_eq_ok_iff.mp hcheck).2

end Exact

end Mdp

end DurativePlanning
