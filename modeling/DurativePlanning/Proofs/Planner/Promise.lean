import DurativePlanning.Proofs.Mdp.Chance
import DurativePlanning.Proofs.Planner.Reward
import DurativePlanning.Proofs.Signs

/-!
# What Decisions Promise

What a decision promises is a sum of products, of a probability and a reward each. Over exact
numbers it is an expectation. Over doubles such a sum might be undefined, and then there would be no
best one of several decisions. But probabilities are made of positive numbers by products and sums,
and rewards are quotients of counts. None of them is negative, and so what is promised is not
negative, and defined, as long as none of them overflows.

* `KeptByChance`: what products and sums of positive numbers have in common.
* `KeptByChance.transitions`: the probabilities of the successors have it as well.
* `Mdp.promise`: the fraction of the goals that a decision gains on average.
* `Mdp.promise_eq_sum`: the same over exact numbers.
* `Mdp.promise_le_self`: without an overflow every promise is defined.
-/

namespace DurativePlanning

/-! ### What probabilities are made of -/

section Chance

variable {α : Type} [Arithmetic α]

/-- A property of numbers is **kept by chance** when it is one of positive numbers, and of their
products and sums. -/
structure KeptByChance (P : α → Prop) : Prop where
  one : P 1
  pos {x : α} : 0 < x → P x
  add {x y : α} : P x → P y → P (x + y)
  mul {x y : α} : P x → P y → P (x * y)

/-- **The probabilities of the successors** that `transitions` lists have what chance keeps: they
are sums of products of chances. -/
theorem KeptByChance.transitions {P : α → Prop} (hP : KeptByChance P) (m : Mdp α) (s : State)
    (action : ℕ) : ∀ x ∈ m.transitions s action, P x.1 :=
  Mdp.forall_transitions hP.one (fun _ _ => hP.add) fun _ hx =>
    hx.forall hP.one (fun _ ⟨_, _, _, _, _, _, hp⟩ => hP.pos hp.1) fun _ _ => hP.mul

end Chance

/-- Chance makes weights of weights: `IsWeight` is `KeptByChance`. -/
theorem keptByChance_isWeight : KeptByChance IsWeight where
  one := fun _ => by decide
  pos := .of_pos
  add := .add
  mul := .mul

/-! ### Promises -/

namespace Mdp

section Promise

variable {α : Type} [Arithmetic α] (m : Mdp α) (s : State)

/-- What the decision at a position of `applicable` **promises**: the fraction of the goals that
each of its successors gains, weighted by the probability of the successor, added up in the order of
the list from zero on. -/
def promise (position : ℕ) : α :=
  ((m.applicable s)[position]?).elim 0 fun action =>
    ((m.transitions s action).map fun x =>
      x.1 * if m.goalCount = 0 ∨ x.2.isFailed = true then 0
        else Arithmetic.ratio (m.gained s x.2) m.goalCount).foldl (· + ·) 0

/-- **The score of a candidate** is what it promises. -/
theorem candidateScore_eq : m.candidateScore s (m.applicable s) = m.promise s := by
  funext position
  rw [candidateScore, promise]
  cases (m.applicable s)[position]? with
  | none => rfl
  | some action => simp only [expectedProgress, progress_eq_ratio, Option.elim_some]

end Promise

/-- Over exact numbers, `promise` is the expectation of the goals that are gained, as a fraction of
all. -/
theorem promise_eq_sum {K : Type} [Field K] [LinearOrder K] [IsStrictOrderedRing K]
    [FloorSemiring K] (m : Mdp K) (s : State) {position action : ℕ}
    (haction : (m.applicable s)[position]? = some action) :
    m.promise s position = ((m.transitions s action).map fun x =>
      x.1 * ((m.gained s x.2 : K) / (m.goalCount : K))).sum := by
  rw [← candidateScore_eq, candidateScore, haction]
  simp only [expectedProgress, progress_eq]
  exact List.sum_eq_foldl.symm

section Double

variable (m : Mdp Float) (s : State)

/-- The reward `progress` is a weight. -/
theorem isWeight_progress (t : State) : IsWeight (m.progress s t) := by
  rw [progress_eq_ratio]
  split
  · exact fun _ => by decide
  · exact .div (.count _) (.count _)

/-- **Without an overflow no promise is negative**: where the probabilities and the rewards of the
successors of a decision are finite, what it promises is at least zero. -/
theorem expectedProgress_nonneg {action : ℕ}
    (hfinite : ∀ x ∈ m.transitions s action,
      x.1.isFinite = true ∧ (m.progress s x.2).isFinite = true) :
    0 ≤ m.expectedProgress s action := by
  have hterms : ∀ y ∈ (m.transitions s action).map fun x => x.1 * m.progress s x.2, 0 ≤ y := by
    rw [List.forall_mem_map]
    intro x hx
    obtain ⟨hprob, hreward⟩ := hfinite x hx
    exact mul_nonneg_double (keptByChance_isWeight.transitions m s action x hx hprob)
      (m.isWeight_progress s x.2 hreward) hprob hreward
  exact List.foldlRecOn _ _ (by decide) fun sum hsum y hy => add_nonneg_double hsum (hterms y hy)

/-- **Without an overflow every promise is defined**: `promise` is at most itself, at every
position. -/
theorem promise_le_self
    (hfinite : ∀ action ∈ m.applicable s, ∀ x ∈ m.transitions s action,
      x.1.isFinite = true ∧ (m.progress s x.2).isFinite = true) (position : ℕ) :
    m.promise s position ≤ m.promise s position := by
  have hnonneg : 0 ≤ m.candidateScore s (m.applicable s) position := by
    rw [candidateScore]
    split
    · next action haction =>
      exact m.expectedProgress_nonneg s (hfinite action (List.mem_of_getElem? haction))
    · decide
  rw [← candidateScore_eq]
  exact le_self_double_iff.mpr (le_double_iff.mp hnonneg).2.1

end Double

end Mdp

end DurativePlanning
