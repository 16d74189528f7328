import DurativePlanning.Law
import DurativePlanning.Proofs.Checks
import Mathlib.Algebra.Order.Floor.Semiring
import Mathlib.Algebra.Order.Field.Basic

/-!
# Exact Arithmetic

Every definition that computes with probabilities is generic in its numbers. This module reads
them over an ordered field, where no operation rounds and every number is finite, and says what
the check of a law amounts to there.

* `exactArithmetic`, `exactSearchArithmetic`: the arithmetic of an ordered field.
* `Law.IsNearlyDistribution`: each branch of a law has no negative probability, and a sum within
  the tolerance of one.
* `Law.check_eq_ok_iff`: exactly these laws are accepted.
-/

namespace DurativePlanning

/-- The **exact arithmetic** of an ordered field: every operation of `Arithmetic` is that of the
field. -/
noncomputable instance exactArithmetic {K : Type} [Field K] [LinearOrder K]
    [IsStrictOrderedRing K] [FloorSemiring K] : Arithmetic K where
  toZero := inferInstance
  toOne := inferInstance
  toAdd := inferInstance
  toSub := inferInstance
  toMul := inferInstance
  toDiv := inferInstance
  toLT := inferInstance
  toLE := inferInstance
  decidableLT := inferInstance
  decidableLE := inferInstance
  ofNat n := n
  isFinite _ := true
  truncate x := ⌊x⌋₊

/-- The functions that scores need and an ordered field does not have. Nothing is assumed of
them. -/
class Elementary (K : Type) where
  ln : K → K
  sqrt : K → K

/-- The exact arithmetic of scores, with `ln` and `sqrt` from `Elementary`. There is no least number
to report, and no need to. -/
noncomputable instance exactSearchArithmetic {K : Type} [Field K] [LinearOrder K]
    [IsStrictOrderedRing K] [FloorSemiring K] [Elementary K] : SearchArithmetic K where
  toArithmetic := exactArithmetic
  ln := Elementary.ln
  sqrt := Elementary.sqrt
  lowest := 0

variable {K : Type} [Field K] [LinearOrder K] [IsStrictOrderedRing K] [FloorSemiring K]

/-- Every number of an ordered field is finite. -/
@[simp] theorem isFinite_exact (x : K) : Arithmetic.isFinite x = true := rfl

namespace Law

/-- `sumChecked` accepts outcomes exactly when none is negative, and then adds their probabilities
to `sum`. -/
theorem sumChecked_eq_ok_iff {action : String} {group : ℕ} {outcomes : List (Outcome K)}
    {sum total : K} :
    sumChecked action group sum outcomes = .ok total ↔
      (∀ o ∈ outcomes, 0 ≤ o.prob) ∧ sum + (outcomes.map (·.prob)).sum = total := by
  induction outcomes generalizing sum with
  | nil => simp [sumChecked]
  | cons o rest ih =>
      by_cases ho : o.prob < 0
      · simp [sumChecked, ho, not_le.mpr ho]
      · simp [sumChecked, ho, ih, not_lt.mp ho, add_assoc]

/-- `offBy bound sum` is false when the distance of `sum` from one is at most `bound`. -/
theorem offBy_eq_false_iff {bound sum : K} : offBy bound sum = false ↔ |sum - 1| ≤ bound := by
  simp [offBy, abs_le, and_comm, neg_le_sub_iff_le_add, add_comm]

/-- Every branch is a **distribution up to the tolerance**: no probability is negative, and the
sum is within the tolerance of one. -/
def IsNearlyDistribution (law : Law K) : Prop :=
  ∀ outcomes ∈ law.branches,
    (∀ o ∈ outcomes, 0 ≤ o.prob) ∧ |(outcomes.map (·.prob)).sum - 1| ≤ tolerance

/-- The tolerance is no negative number, so that a sum of exactly one passes. -/
theorem tolerance_nonneg : (0 : K) ≤ tolerance :=
  div_nonneg (Nat.cast_nonneg 1) (Nat.cast_nonneg 1000000000)

/-- A law of one branch, none of whose probabilities is negative and which add up to one,
`IsNearlyDistribution`. -/
theorem isNearlyDistribution_fixed {outcomes : List (Outcome K)}
    (hnonneg : ∀ o ∈ outcomes, 0 ≤ o.prob) (hsum : (outcomes.map (·.prob)).sum = 1) :
    (fixed outcomes).IsNearlyDistribution := by
  intro branch hbranch
  obtain rfl := List.mem_singleton.mp hbranch
  refine ⟨hnonneg, ?_⟩
  rw [hsum, sub_self, abs_zero]
  exact tolerance_nonneg

/-- A **coin**: the only target of a group comes up true or false with given probabilities. -/
def coin {α : Type} (heads tails : α) : Law α :=
  fixed [⟨heads, [(0, true)]⟩, ⟨tails, [(0, false)]⟩]

/-- A `coin` whose two probabilities are not negative and add up to one is a distribution. -/
theorem isNearlyDistribution_coin {heads tails : K} (hheads : 0 ≤ heads) (htails : 0 ≤ tails)
    (hsum : heads + tails = 1) : (coin heads tails).IsNearlyDistribution :=
  isNearlyDistribution_fixed (by simp [hheads, htails]) (by simp [hsum])

/-- **What the check of a law amounts to**: over exact numbers `Law.check` succeeds exactly for the
laws that are `IsNearlyDistribution`. -/
theorem check_eq_ok_iff {law : Law K} {action : String} {group : ℕ} :
    law.check action group tolerance = .ok () ↔ law.IsNearlyDistribution := by
  rw [check, forM_eq_ok_iff]
  refine forall₂_congr fun outcomes _ => ?_
  rw [bind_eq_ok_iff, ← offBy_eq_false_iff]
  constructor
  · rintro ⟨total, hsum, hoff⟩
    obtain ⟨hnonneg, rfl⟩ := sumChecked_eq_ok_iff.mp hsum
    rw [zero_add] at hoff
    split at hoff
    · exact absurd hoff (by simp)
    · next hfar => exact ⟨hnonneg, Bool.eq_false_iff.mpr hfar⟩
  · rintro ⟨hnonneg, hoff⟩
    refine ⟨_, sumChecked_eq_ok_iff.mpr ⟨hnonneg, rfl⟩, ?_⟩
    simp [hoff, pure, Except.pure]

/-- `Law.select` gives one of the `branches` of the law, in every state. -/
theorem select_mem_branches {α : Type} (law : Law α) (holds : GroundFluent → Bool)
    (bindings : List ObjectId) : law.select holds bindings ∈ law.branches := by
  cases law with
  | fixed outcomes => simp [select, branches]
  | conditional cases otherwise =>
      simp only [select, branches, List.mem_append, List.mem_map, List.mem_singleton]
      split
      · next c hc => exact Or.inl ⟨c, List.mem_of_find?_eq_some hc, rfl⟩
      · exact Or.inr rfl

end Law

end DurativePlanning
