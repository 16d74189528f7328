import DurativePlanning.Proofs.Mdp.Progress
import DurativePlanning.Proofs.Underflow

/-!
# Progress in Doubles

The check of a problem adds up probabilities with the rounding of doubles, and what it says of their
exact sum is less than over exact numbers. It still says that something is possible: doubles that
are neither negative nor positive are zeros, and zeros add up to zero without rounding, which is too
far from one. So a process that is built of doubles makes progress as well.

What it does not say is that every listed successor is possible. Its probability is a sum of
products of positive numbers, and a product may be rounded to zero. It is not when the chances are
not too small for the number of draws.

* `sumChecked_zeros`: zeros add up to zero.
* `Mdp.Built.positive_doubles`: every branch of a law has an outcome of positive probability.
* `Mdp.transitions_pos_double`: when nothing underflows, every listed probability is positive.
* `Mdp.noUnderflow_of_value?`: chances of at least `2 ^ -k` do not underflow in a decision that
  draws at most `1022 / k` times.
-/

namespace DurativePlanning

open Float.Model

/-- A double that `isFinite`, and neither negative nor positive, is one of the two zeros. -/
theorem exists_unpack_eq_zero {x : Float} (hfinite : Arithmetic.isFinite x = true)
    (hnegative : ¬x < 0) (hpositive : ¬0 < x) : ∃ sign, x.toModel.unpack = .zero sign := by
  have hfinite : x.toModel.unpack.isFinite = true := hfinite
  have hnegative : ¬x.toModel.unpack.lt (.zero .positive) = true :=
    fun h => hnegative (decide_eq_true (p := x.toModel < (0.0 : Float).toModel) h)
  have hpositive : ¬(UnpackedFloat.zero .positive).lt x.toModel.unpack = true :=
    fun h => hpositive (decide_eq_true (p := (0.0 : Float).toModel < x.toModel) h)
  generalize x.toModel.unpack = parts at hfinite hnegative hpositive ⊢
  cases parts with
  | zero sign => exact ⟨sign, rfl⟩
  | notANumber => exact absurd hfinite Bool.false_ne_true
  | infinity sign => exact absurd hfinite Bool.false_ne_true
  | finite sign m e hm =>
      cases sign with
      | negative => exact absurd rfl hnegative
      | positive => exact absurd rfl hpositive

/-- A zero, of whatever `sign`, adds nothing to zero. -/
theorem zero_add_of_unpack {x : Float} {sign : UnpackedFloat.Sign}
    (h : x.toModel.unpack = .zero sign) : (0.0 : Float) + x = 0.0 := by
  have hadd : (0.0 : Float) + x =
      .ofModel (.pack (.add .binary64 (.zero .positive) x.toModel.unpack)) := rfl
  rw [hadd, h]
  cases sign with
  | negative => rfl
  | positive => rfl

/-- **Zeros add up to zero**: `sumChecked` of outcomes none of which is positive gives zero, and so
fails the check of the sum. -/
theorem sumChecked_zeros {action : String} {group : ℕ} {outcomes : List (Outcome Float)}
    {total : Float} (hnone : ∀ o ∈ outcomes, ¬0 < o.prob)
    (h : Law.sumChecked action group 0.0 outcomes = .ok total) : total = 0.0 := by
  induction outcomes with
  | nil => exact (Except.ok.inj h).symm
  | cons o rest ih =>
      rw [List.forall_mem_cons] at hnone
      rw [Law.sumChecked] at h
      split at h
      · next hprob =>
        obtain ⟨hfinite, hnegative⟩ := Bool.and_eq_true_iff.mp hprob
        have hnegative : decide (o.prob < 0) = false := (Bool.not_eq_true' _).mp hnegative
        obtain ⟨sign, hsign⟩ :=
          exists_unpack_eq_zero hfinite (of_decide_eq_false hnegative) hnone.1
        rw [zero_add_of_unpack hsign] at h
        exact ih hnone.2 h
      · exact absurd h (by simp)

/-- A law of doubles that passes `Law.check` has an outcome of positive probability in each
branch. -/
theorem Law.positive_of_check {law : Law Float} {action : String} {group : ℕ}
    (h : law.check action group Law.tolerance = .ok ()) : law.Positive := by
  intro outcomes houtcomes
  by_contra hnone
  simp only [not_exists, not_and] at hnone
  rw [check, forM_eq_ok_iff] at h
  obtain ⟨total, hsum, hnear⟩ := bind_eq_ok_iff.mp (h outcomes houtcomes)
  obtain rfl : total = 0.0 := sumChecked_zeros hnone hsum
  have hfar : offBy Law.tolerance (0.0 : Float) = true := by decide +kernel
  rw [hfar] at hnear
  exact absurd hnear (by simp)

namespace Mdp

/-- **A process of doubles makes progress**: a `Built` process is `Positive`. -/
theorem Built.positive_doubles {m : Mdp Float} (hm : m.Built) : m.Positive := by
  intro a ha e he g hg
  have hevents := forM_eq_ok_iff.mp (hm.checked a ha) e he
  obtain ⟨i, hi, rfl⟩ := List.getElem_of_mem hg
  exact Law.positive_of_check (forM_eq_ok_iff.mp hevents (e.groups[i], i)
    (List.mem_zipIdx_iff_getElem?.mpr (List.getElem?_eq_getElem hi)))

end Mdp

/-! ### Listed probabilities -/

/-- **A product of chances** that are at least `2 ^ -k` is not too small, if it has few factors. -/
theorem ProductOf.atLeastPower {D : Float → Prop} {k n : ℕ} {x : Float}
    (hD : ∀ p, D p → AtLeastPower k p.toModel.unpack) (h : ProductOf D n x)
    (hn : n * k ≤ 1022) : AtLeastPower (n * k) x.toModel.unpack := by
  induction h with
  | one n =>
      have hone : (1 : Float).toModel.unpack = .finite .positive (2 ^ 52) (-52) (by decide) := rfl
      change AtLeastPower (n * k) (1 : Float).toModel.unpack
      rw [hone]
      exact .finite _ le_rfl (by decide) (by omega)
  | factor n hx => exact (hD _ hx).mono (Nat.le_mul_of_pos_left k (Nat.succ_pos n))
  | @mul i j x y _ _ ihx ihy =>
      rw [Nat.add_mul] at hn ⊢
      exact atLeastPower_mul (ihx (by omega)) (ihy (by omega)) hn

namespace Mdp

variable {m : Mdp Float} {s : State} {action : ℕ}

/-- **Every listed probability is positive** when nothing underflows: sums of positive doubles are
positive by `add_pos_double`. -/
theorem transitions_pos_double (h : m.NoUnderflow s action) :
    ∀ x ∈ m.transitions s action, 0 < x.1 :=
  transitions_pos_of_noUnderflow (by decide) (fun _ _ => add_pos_double) h

/-- **Chances that are not too small do not underflow**: it is enough that each of them is at least
`2 ^ -k` and that `drawCount` is at most `1022 / k`. -/
theorem noUnderflow_of_value? {k : ℕ} (hk : k ≤ 1022)
    (hchances : ∀ p, m.Chance p → ∃ q, (Binary.ofFloat p).value? = some q ∧ (1 / 2) ^ k ≤ q)
    (hcount : m.drawCount s action * k ≤ 1022) : m.NoUnderflow s action := by
  refine fun x hx => zero_lt_double_iff.mpr (hx.atLeastPower (fun p hp => ?_) hcount).positiveParts
  obtain ⟨q, hvalue, hq⟩ := hchances p hp
  exact atLeastPower_of_value? hvalue hk hq

end Mdp

end DurativePlanning
