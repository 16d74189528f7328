import DurativePlanning.Proofs.Exact
import DurativePlanning.Proofs.Mdp.Step

/-!
# Products of Chances

The probability of a successor is a sum of products. The factors are the positive probabilities of
outcomes, at most one for each group that is drawn, and the brackets are where the expansion of the
events puts them. This is so for every arithmetic, with or without rounding, and whatever is said of
probabilities is read off it: what holds of the products, and is kept by sums, holds of the
successors.

* `ProductOf`: the products of at most so many factors.
* `Mdp.Chance`: the positive probabilities that the laws of a process give.
* `fireAll_productOf`: firing events multiplies chances, one for each group.
* `Mdp.forall_transitions`: what holds of products, and is kept by sums, holds of the successors.
* `Mdp.NoUnderflow`, `Mdp.transitions_pos_of_noUnderflow`: when no product vanishes, every listed
  probability is positive.
* `Mdp.transitions_pos`: over exact numbers it always is.
-/

namespace DurativePlanning

variable {α : Type} [Arithmetic α]

/-! ### Products -/

/-- **A product of at most `n` factors** that have the property `D`, with brackets anywhere. -/
inductive ProductOf (D : α → Prop) : ℕ → α → Prop
  | one (n : ℕ) : ProductOf D n 1
  | factor (n : ℕ) {x : α} : D x → ProductOf D (n + 1) x
  | mul {i j : ℕ} {x y : α} : ProductOf D i x → ProductOf D j y → ProductOf D (i + j) (x * y)

/-- What holds of `1` and of the factors, and is kept by `*`, holds of every product. -/
theorem ProductOf.forall {D P : α → Prop} (hone : P 1) (hD : ∀ x, D x → P x)
    (hmul : ∀ x y, P x → P y → P (x * y)) {n : ℕ} {x : α} (h : ProductOf D n x) : P x := by
  induction h with
  | one => exact hone
  | factor _ hx => exact hD _ hx
  | mul _ _ hx hy => exact hmul _ _ hx hy

/-! ### The results of events -/

/-- A **chance** that a law gives: the positive probability of an outcome of one of its
`branches`. -/
def Law.Chance (law : Law α) (p : α) : Prop :=
  0 < p ∧ ∃ outcomes ∈ law.branches, ∃ o ∈ outcomes, o.prob = p

/-- What is drawn for a group has a probability that its law gives; `Distribution.ofOutcomes` leaves
out those that are not positive. -/
theorem EffectGroup.chance_distribution (g : EffectGroup α) (holds : GroundFluent → Bool) :
    ∀ x ∈ (g.distribution holds).outcomes, g.law.Chance x.1 := by
  intro x hx
  obtain ⟨hmem, hpos⟩ := List.mem_filter.mp hx
  obtain ⟨o, ho, rfl⟩ := List.mem_map.mp hmem
  exact ⟨of_decide_eq_true hpos, _, g.law.select_mem_branches holds g.bindings, o, ho, rfl⟩

section Events

variable {D : α → Prop}

/-- A joint draw of `jointDistribution` multiplies **one chance for each group**. -/
theorem jointDistribution_productOf {groups : List (EffectGroup α)}
    (hgroups : ∀ g ∈ groups, ∀ p, g.law.Chance p → D p) (holds : GroundFluent → Bool) :
    ∀ x ∈ (jointDistribution groups holds).outcomes, ProductOf D groups.length x.1 := by
  suffices H : ∀ (n : ℕ) (d : Distribution α), (∀ x ∈ d.outcomes, ProductOf D n x.1) →
      ∀ x ∈ (groups.foldl (fun joint g => joint.product (g.distribution holds)) d).outcomes,
        ProductOf D (n + groups.length) x.1 by
    have h := H 0 .certain (List.forall_mem_singleton.mpr (.one 0))
    rwa [Nat.zero_add] at h
  induction groups with
  | nil => exact fun _ _ hd => hd
  | cons g rest ih =>
      rw [List.forall_mem_cons] at hgroups
      intro n d hd
      rw [List.length_cons, Nat.add_comm rest.length 1, ← Nat.add_assoc]
      refine ih hgroups.2 (n + 1) _ fun x hx => ?_
      obtain ⟨y, hy, hx⟩ := List.mem_flatMap.mp hx
      obtain ⟨z, hz, rfl⟩ := List.mem_map.mp hx
      exact .mul (hd y hy) (.factor 0 (hgroups.1 _ (g.chance_distribution holds z hz)))

/-- `Firing.outcomes` multiplies one chance for each group of the event. An event that is guarded,
and does nothing, has the weight one. -/
theorem Firing.outcomes_productOf {f : Firing α}
    (hf : ∀ g ∈ f.event.groups, ∀ p, g.law.Chance p → D p) (table : AtomTable) (s : AtomSet) :
    ∀ x ∈ f.outcomes table s, ProductOf D f.event.groups.length x.1 := by
  rw [Firing.outcomes]
  split
  · exact List.forall_mem_singleton.mpr (.one _)
  · rw [Event.outcomes, List.forall_mem_map]
    exact jointDistribution_productOf hf _

/-- **Firing events multiplies chances**: a weight of `fireAll` is a `ProductOf` at most one chance
for each group of each event. -/
theorem fireAll_productOf {events : List (Firing α)}
    (hevents : ∀ f ∈ events, ∀ g ∈ f.event.groups, ∀ p, g.law.Chance p → D p)
    (table : AtomTable) (s : AtomSet) :
    ∀ x ∈ fireAll table events s,
      ProductOf D (events.map fun f => f.event.groups.length).sum x.1 := by
  suffices H : ∀ (n : ℕ) (branches : List (α × AtomSet)), (∀ x ∈ branches, ProductOf D n x.1) →
      ∀ x ∈ events.foldl (fire table) branches,
        ProductOf D (n + (events.map fun f => f.event.groups.length).sum) x.1 by
    have h := H 0 [(1, s)] (List.forall_mem_singleton.mpr (.one 0))
    rwa [Nat.zero_add] at h
  induction events with
  | nil => exact fun _ _ hbranches => hbranches
  | cons f rest ih =>
      rw [List.forall_mem_cons] at hevents
      intro n branches hbranches
      rw [List.map_cons, List.sum_cons, ← Nat.add_assoc]
      refine ih hevents.2 _ _ fun x hx => ?_
      obtain ⟨y, hy, hx⟩ := List.mem_flatMap.mp hx
      obtain ⟨z, hz, rfl⟩ := List.mem_map.mp hx
      exact .mul (hbranches y hy) (Firing.outcomes_productOf hevents.1 table y.2 z hz)

end Events

/-! ### The successors of a decision -/

namespace Mdp

variable {m : Mdp α} {s : State} {action : ℕ}

/-- The **chances** of a process: the positive probabilities that its laws give. -/
def Chance (m : Mdp α) (p : α) : Prop :=
  ∃ a ∈ m.singles, ∃ e ∈ a.events, ∃ g ∈ e.groups, g.law.Chance p

/-- **The probabilities of the successors** are sums of products of chances: what holds of the
products with `drawCount` factors, and is kept by sums, holds of `transitions`. -/
theorem forall_transitions {P : α → Prop} (hone : P 1) (hadd : ∀ x y, P x → P y → P (x + y))
    (hproduct : ∀ x, ProductOf m.Chance (m.drawCount s action) x → P x) :
    ∀ x ∈ m.transitions s action, P x.1 := by
  cases happ : m.isApplicable s action with
  | false =>
      rw [transitions_eq_self happ]
      exact List.forall_mem_singleton.mpr hone
  | true =>
      obtain ⟨-, kind, hkind, -⟩ := isApplicable_iff.mp happ
      rcases Nat.lt_or_ge s.remaining (m.cost kind) with hcost | hcost
      · rw [transitions_eq_failed happ hkind hcost]
        exact List.forall_mem_singleton.mpr hone
      · rw [drawCount_eq happ hkind hcost] at hproduct
        rw [transitions_eq_collect happ hkind hcost]
        refine forall_collect hadd ?_
        rw [List.forall_mem_map]
        refine fun x hx => hproduct x.1 (fireAll_productOf (fun f hf g hg p hp => ?_) _ _ x hx)
        obtain ⟨a, ha, he⟩ := exists_action_of_mem_firings hf
        exact ⟨a, ha, f.event, he, g, hg, hp⟩

/-- **Nothing underflows** in a decision: every product of as many chances as `drawCount` says is
positive, as it is over exact numbers. -/
def NoUnderflow (m : Mdp α) (s : State) (action : ℕ) : Prop :=
  ∀ x, ProductOf m.Chance (m.drawCount s action) x → 0 < x

/-- **Every listed probability is positive** when nothing underflows, and sums of positive numbers
are positive. -/
theorem transitions_pos_of_noUnderflow (hone : (0 : α) < 1)
    (hadd : ∀ x y : α, 0 < x → 0 < y → 0 < x + y) (h : m.NoUnderflow s action) :
    ∀ x ∈ m.transitions s action, 0 < x.1 :=
  forall_transitions hone hadd h

section Exact

variable {K : Type} [Field K] [LinearOrder K] [IsStrictOrderedRing K] [FloorSemiring K]

/-- Over exact numbers **nothing underflows**: products of positive numbers are positive. -/
theorem noUnderflow (m : Mdp K) (s : State) (action : ℕ) : m.NoUnderflow s action :=
  fun _ hx => hx.forall one_pos (fun _ ⟨_, _, _, _, _, _, hp⟩ => hp.1) fun _ _ => mul_pos

/-- Over exact numbers every successor is listed with a positive probability. -/
theorem transitions_pos (m : Mdp K) (s : State) (action : ℕ) :
    ∀ x ∈ m.transitions s action, 0 < x.1 :=
  transitions_pos_of_noUnderflow one_pos (fun _ _ => add_pos) (m.noUnderflow s action)

end Exact

end Mdp

end DurativePlanning
