import DurativePlanning.Proofs.Weights
import Mathlib.Algebra.Order.BigOperators.Ring.Finset

/-!
# Expectations

Weights turn a function on values into a number, its sum over all values with the weight of each.
Everything that is asked of weighted results can be asked in this form: the weight of one value, the
total mass, the weight of a set of values. A random step is passed by taking the expectation of what
follows, and for weights that are never negative expectations are monotone. Bounds on the mass are
carried in this way through any sequence of random steps.

* `Weights.expect`: the sum of a function over weighted values.
* `Weights.expect_bind`: expectation after one more random step.
* `Weights.expect_mono`: expectations of weights that are never negative are monotone.
* `Weights.Within`: weights that are never negative, with a mass between two bounds.
* `Weights.Within.foldlM`: the bounds of a sequence of random steps are products.
-/

namespace DurativePlanning

namespace Weights

section Semiring

variable {K : Type} [Semiring K] {β γ : Type}

/-- The **expectation** of a function: its sum over all values, each with its weight, as a
`Finsupp.linearCombination`. -/
noncomputable def expect (w : Weights K β) (f : β → K) : K := Finsupp.linearCombination K f w

@[simp] theorem expect_zero (f : β → K) : (0 : Weights K β).expect f = 0 :=
  map_zero (Finsupp.linearCombination K f)

/-- `expect` is additive in the weights. -/
@[simp] theorem expect_add (v w : Weights K β) (f : β → K) :
    (v + w).expect f = v.expect f + w.expect f :=
  map_add (Finsupp.linearCombination K f) v w

/-- Scaling the weights by `p` scales the expectation. -/
@[simp] theorem expect_smul (p : K) (w : Weights K β) (f : β → K) :
    (p • w).expect f = p * w.expect f :=
  map_smul (Finsupp.linearCombination K f) p w

/-- The expectation at a sure value. -/
@[simp] theorem expect_pure (x : β) (f : β → K) : (pure x : Weights K β).expect f = f x :=
  (Finsupp.linearCombination_single K (1 : K) x).trans (one_mul (f x))

/-- **One more random step**: the expectation after `w >>= k` is the expectation of the
expectation. -/
theorem expect_bind (w : Weights K β) (k : β → Weights K γ) (f : γ → K) :
    (w >>= k).expect f = w.expect fun x => (k x).expect f := by
  induction w using induction_on with
  | zero => simp
  | add x p v hv => rw [add_bind, smul_bind, sure_bind, expect_add, expect_smul, hv, expect_add,
      expect_smul, expect_pure]

/-- The expectation over `ofList` of a weighted list is the sum over its entries, equal values not
taken together. -/
theorem expect_ofList (l : List (K × β)) (f : β → K) :
    (ofList l).expect f = (l.map fun x => x.1 * f x.2).sum := by
  induction l with
  | nil => exact expect_zero f
  | cons x rest ih =>
      obtain ⟨p, x⟩ := x
      rw [ofList_cons, expect_add, expect_smul, expect_pure, ih, List.map_cons, List.sum_cons]

/-- `prob` of a value is the expectation of its indicator. -/
theorem prob_eq_expect [DecidableEq β] (w : Weights K β) (y : β) :
    w.prob y = w.expect fun x => if x = y then 1 else 0 := by
  induction w using induction_on with
  | zero => simp
  | add x p v hv => rw [prob_add, prob_smul, prob_pure, hv, expect_add, expect_smul, expect_pure]

/-- The total weight of all values. -/
noncomputable def mass (w : Weights K β) : K := w.expect fun _ => 1

/-- The expectation of a constant is the `mass` times the constant. -/
theorem expect_const (w : Weights K β) (c : K) : (w.expect fun _ => c) = w.mass * c := by
  rw [mass]
  induction w using induction_on with
  | zero => simp
  | add x p v hv => rw [expect_add, expect_add, expect_smul, expect_smul, expect_pure, expect_pure,
      hv, add_mul, mul_one]

@[simp] theorem mass_pure (x : β) : (pure x : Weights K β).mass = 1 := expect_pure x _

/-- The mass after one more random step is the expectation of the `mass` of the step. -/
theorem mass_bind (w : Weights K β) (k : β → Weights K γ) :
    (w >>= k).mass = w.expect fun x => (k x).mass := expect_bind w k _

/-- A random step that puts all its weight on one value `y` leaves the expectation of this weight on
`y`. -/
theorem bind_smul_pure (w : Weights K β) (c : β → K) (y : γ) :
    (w >>= fun x => c x • (pure y : Weights K γ)) = w.expect c • pure y := by
  induction w using induction_on with
  | zero => simp
  | add x p v hv => rw [add_bind, smul_bind, sure_bind, hv, expect_add, expect_smul, expect_pure,
      add_smul, mul_smul]

/-- The expectation after a function on the values. -/
theorem expect_map (w : Weights K β) (g : β → γ) (f : γ → K) :
    (g <$> w).expect f = w.expect fun x => f (g x) := by
  rw [← bind_pure_comp, expect_bind]
  exact congrArg w.expect (funext fun x => expect_pure (g x) f)

/-- A constant gathers all weight. -/
theorem map_const (w : Weights K β) (y : γ) : (fun _ => y) <$> w = w.mass • (pure y : Weights K γ) := by
  rw [← bind_pure_comp, mass, ← bind_smul_pure]
  simp only [one_smul]

/-- `<$>` moves weight and loses none. -/
@[simp] theorem mass_map (w : Weights K β) (g : β → γ) : (g <$> w).mass = w.mass := expect_map w g _

/-- The mass of a weighted list is the sum of its weights. -/
theorem mass_ofList (l : List (K × β)) : (ofList l).mass = (l.map Prod.fst).sum := by
  rw [mass, expect_ofList]
  exact congrArg List.sum (List.map_congr_left fun x _ => mul_one x.1)

end Semiring

/-! ### Weights that are never negative -/

section Ordered

variable {K : Type} [Field K] [LinearOrder K] [IsStrictOrderedRing K] {β γ ι : Type}

/-- **Expectations are monotone**: where no weight is negative, it suffices to compare the functions
at the values with weight. -/
theorem expect_mono {w : Weights K β} (hw : ∀ x, 0 ≤ w.prob x) {f g : β → K}
    (h : ∀ x, w.prob x ≠ 0 → f x ≤ g x) : w.expect f ≤ w.expect g :=
  Finset.sum_le_sum fun x hx =>
    mul_le_mul_of_nonneg_left (h x (Finsupp.mem_support_iff.mp hx)) (hw x)

/-- Where no weight is negative, neither is the expectation of a function that is nowhere
negative. -/
theorem expect_nonneg {w : Weights K β} (hw : ∀ x, 0 ≤ w.prob x) {f : β → K}
    (h : ∀ x, 0 ≤ f x) : 0 ≤ w.expect f :=
  Finset.sum_nonneg fun x _ => mul_nonneg (hw x) (h x)

/-- An expectation is positive exactly when the function is, at a value with weight. -/
theorem expect_pos_iff {w : Weights K β} (hw : ∀ x, 0 ≤ w.prob x) {f : β → K}
    (h : ∀ x, 0 ≤ f x) : 0 < w.expect f ↔ ∃ x, 0 < w.prob x ∧ 0 < f x := by
  constructor
  · intro hpos
    obtain ⟨x, -, hx⟩ := Finset.exists_ne_zero_of_sum_ne_zero hpos.ne'
    obtain ⟨hprob, hf⟩ := mul_ne_zero_iff.mp hx
    exact ⟨x, (hw x).lt_of_ne' hprob, (h x).lt_of_ne' hf⟩
  · rintro ⟨x, hprob, hf⟩
    have hmem : x ∈ Finsupp.support w := Finsupp.mem_support_iff.mpr hprob.ne'
    exact Finset.sum_pos' (fun y _ => mul_nonneg (hw y) (h y)) ⟨x, hmem, mul_pos hprob hf⟩

theorem prob_pure_nonneg (x y : β) : 0 ≤ (pure x : Weights K β).prob y := by
  classical
  rw [prob_pure]
  split
  · exact zero_le_one
  · exact le_refl 0

/-- The weights of `ofList` are not negative when none of the list is. -/
theorem prob_ofList_nonneg {l : List (K × β)} (h : ∀ x ∈ l, 0 ≤ x.1) (y : β) :
    0 ≤ (ofList l).prob y := by
  classical
  rw [prob_ofList]
  refine List.sum_nonneg fun p hp => ?_
  obtain ⟨x, hx, rfl⟩ := List.mem_map.mp hp
  exact h x (List.mem_filter.mp hx).1

/-- The weights of `w >>= k` are not negative when those of `w` and of each `k x` are not. -/
theorem prob_bind_nonneg {w : Weights K β} (hw : ∀ x, 0 ≤ w.prob x) {k : β → Weights K γ}
    (hk : ∀ x y, 0 ≤ (k x).prob y) (y : γ) : 0 ≤ (w >>= k).prob y := by
  classical
  rw [prob_eq_expect, expect_bind]
  refine expect_nonneg hw fun x => ?_
  rw [← prob_eq_expect]
  exact hk x y

/-- A function on the values keeps weights from being negative, by `prob_bind_nonneg`. -/
theorem prob_map_nonneg {w : Weights K β} (hw : ∀ x, 0 ≤ w.prob x) (g : β → γ) (y : γ) :
    0 ≤ (g <$> w).prob y := by
  rw [← bind_pure_comp]
  exact prob_bind_nonneg hw (fun x => prob_pure_nonneg (g x)) y

/-- A value has weight after `w >>= k` exactly when `k` reaches it from a value with weight. -/
theorem prob_bind_pos_iff {w : Weights K β} (hw : ∀ x, 0 ≤ w.prob x) {k : β → Weights K γ}
    (hk : ∀ x y, 0 ≤ (k x).prob y) {y : γ} :
    0 < (w >>= k).prob y ↔ ∃ x, 0 < w.prob x ∧ 0 < (k x).prob y := by
  classical
  rw [prob_eq_expect, expect_bind]
  simp only [← prob_eq_expect]
  exact expect_pos_iff hw fun x => hk x y

/-! ### Bounds on the mass -/

/-- Weights that are **never negative**, with a **mass between two bounds**. -/
structure Within (low high : K) (w : Weights K β) : Prop where
  nonneg : ∀ x, 0 ≤ w.prob x
  low_le : low ≤ w.mass
  le_high : w.mass ≤ high

namespace Within

variable {low high low' high' : K} {w : Weights K β}

/-- A sure value has a mass between one and one. -/
theorem sure (x : β) : Within 1 1 (pure x : Weights K β) :=
  ⟨prob_pure_nonneg x, (mass_pure x).ge, (mass_pure x).le⟩

omit [IsStrictOrderedRing K] in
/-- Bounds may be given up. -/
theorem weaken (h : Within low high w) (hlow : low' ≤ low) (hhigh : high ≤ high') :
    Within low' high' w :=
  ⟨h.nonneg, hlow.trans h.low_le, h.le_high.trans hhigh⟩

/-- **One more random step** multiplies the bounds: `Within low high w` and
`Within low' high' (k x)` for each `x` bound the mass of `w >>= k`. -/
theorem andThen {k : β → Weights K γ} (hw : Within low high w)
    (hk : ∀ x, Within low' high' (k x)) (hlow' : 0 ≤ low') (hhigh' : 0 ≤ high') :
    Within (low * low') (high * high') (w >>= k) := by
  refine ⟨prob_bind_nonneg hw.nonneg fun x => (hk x).nonneg, ?_, ?_⟩
  · calc low * low' ≤ w.mass * low' := mul_le_mul_of_nonneg_right hw.low_le hlow'
      _ = w.expect fun _ => low' := (expect_const w low').symm
      _ ≤ w.expect fun x => (k x).mass := expect_mono hw.nonneg fun x _ => (hk x).low_le
      _ = (w >>= k).mass := (mass_bind w k).symm
  · calc (w >>= k).mass = w.expect fun x => (k x).mass := mass_bind w k
      _ ≤ w.expect fun _ => high' := expect_mono hw.nonneg fun x _ => (hk x).le_high
      _ = w.mass * high' := expect_const w high'
      _ ≤ high * high' := mul_le_mul_of_nonneg_right hw.le_high hhigh'

/-- A function on the values keeps the bounds. -/
theorem map (hw : Within low high w) (g : β → γ) : Within low high (g <$> w) := by
  have h := hw.andThen (fun x => sure (g x)) zero_le_one zero_le_one
  rwa [mul_one, mul_one, bind_pure_comp] at h

/-- **A sequence of random steps**, each within powers of two bounds, is within the products, by
induction on the list with `andThen`. -/
theorem foldlM {step : β → ι → Weights K β} {count : ι → ℕ} (hlow : 0 ≤ low) (hhigh : 0 ≤ high)
    (l : List ι) (h : ∀ i ∈ l, ∀ x, Within (low ^ count i) (high ^ count i) (step x i)) (x : β) :
    Within (low ^ (l.map count).sum) (high ^ (l.map count).sum) (l.foldlM step x) := by
  induction l generalizing x with
  | nil => simpa using sure x
  | cons i rest ih =>
      rw [List.forall_mem_cons] at h
      rw [List.map_cons, List.sum_cons, pow_add, pow_add, List.foldlM_cons]
      exact (h.1 x).andThen (ih h.2) (pow_nonneg hlow _) (pow_nonneg hhigh _)

end Within

end Ordered

end Weights

end DurativePlanning
