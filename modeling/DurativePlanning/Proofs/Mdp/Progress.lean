import DurativePlanning.Proofs.Mdp.Program
import DurativePlanning.Proofs.Mdp.Run

/-!
# Progress

A process never gets stuck in the middle of a decision, and never stands still. In a built process
every law gives some outcome a positive probability, so that a decision that can be taken has a
successor, and whatever number is drawn, it picks one. Every decision takes at least one tick, so
that the time left goes down until nothing is left or the process fails.

* `Law.Positive`: every branch of a law has an outcome of positive probability.
* `pickAt_mem`: a number picks one of the weighted results.
* `Mdp.sample_mem_successors`: whatever number is drawn, it picks a listed successor.
* `Mdp.remaining_lt`: the time left goes down.
* `Mdp.applicable_ne_nil_of_split`: in split mode something can always be done.
-/

namespace DurativePlanning

/-! ### Something has positive probability -/

section Positive

variable {α : Type} [Arithmetic α]

/-- Every branch of a law has an **outcome of positive probability**. -/
def Law.Positive (law : Law α) : Prop := ∀ outcomes ∈ law.branches, ∃ o ∈ outcomes, 0 < o.prob

/-- `distribution` of a group with a `Positive` law has an outcome. -/
theorem EffectGroup.distribution_ne_nil {g : EffectGroup α} (hg : g.law.Positive)
    (holds : GroundFluent → Bool) : (g.distribution holds).outcomes ≠ [] := by
  obtain ⟨o, ho, hpos⟩ := hg _ (g.law.select_mem_branches holds g.bindings)
  refine List.ne_nil_of_mem (a := (o.prob, g.literals o)) (List.mem_filter.mpr ⟨?_, ?_⟩)
  · exact List.mem_map_of_mem (f := fun o => (o.prob, g.literals o)) ho
  · exact decide_eq_true hpos

/-- `jointDistribution` of groups with `Positive` laws has an outcome. -/
theorem jointDistribution_ne_nil {groups : List (EffectGroup α)}
    (hgroups : ∀ g ∈ groups, g.law.Positive) (holds : GroundFluent → Bool) :
    (jointDistribution groups holds).outcomes ≠ [] := by
  suffices H : ∀ d : Distribution α, d.outcomes ≠ [] →
      (groups.foldl (fun joint g => joint.product (g.distribution holds)) d).outcomes ≠ [] from
    H .certain (List.cons_ne_nil _ _)
  induction groups with
  | nil => exact fun _ hd => hd
  | cons g rest ih =>
      intro d hd
      rw [List.forall_mem_cons] at hgroups
      refine ih hgroups.2 _ ?_
      obtain ⟨x, hx⟩ := List.exists_mem_of_ne_nil _ hd
      obtain ⟨y, hy⟩ := List.exists_mem_of_ne_nil _ (g.distribution_ne_nil hgroups.1 holds)
      exact List.ne_nil_of_mem (List.mem_flatMap.mpr ⟨x, hx, List.mem_map_of_mem hy⟩)

/-- An event whose laws are `Positive` has a result. -/
theorem Firing.outcomes_ne_nil {table : AtomTable} {f : Firing α}
    (hf : ∀ g ∈ f.event.groups, g.law.Positive) (s : AtomSet) : f.outcomes table s ≠ [] := by
  rw [outcomes]
  split
  · exact List.cons_ne_nil _ _
  · rw [Event.outcomes, Ne, List.map_eq_nil_iff]
    exact jointDistribution_ne_nil hf _

/-- `fireAll` has a result when the laws of all its events are `Positive`. -/
theorem fireAll_ne_nil {table : AtomTable} {events : List (Firing α)}
    (hevents : ∀ f ∈ events, ∀ g ∈ f.event.groups, g.law.Positive) (s : AtomSet) :
    fireAll table events s ≠ [] := by
  suffices H : ∀ branches : List (α × AtomSet), branches ≠ [] →
      events.foldl (fire table) branches ≠ [] from H _ (List.cons_ne_nil _ _)
  induction events with
  | nil => exact fun _ hbranches => hbranches
  | cons f rest ih =>
      intro branches hbranches
      rw [List.forall_mem_cons] at hevents
      refine ih hevents.2 _ ?_
      obtain ⟨x, hx⟩ := List.exists_mem_of_ne_nil _ hbranches
      obtain ⟨y, hy⟩ := List.exists_mem_of_ne_nil _ (Firing.outcomes_ne_nil hevents.1 x.2)
      exact List.ne_nil_of_mem (List.mem_flatMap.mpr ⟨x, hx, List.mem_map_of_mem hy⟩)

namespace Mdp

/-- The laws of all groups of a process are `Law.Positive`. -/
def Positive (m : Mdp α) : Prop := ∀ a ∈ m.singles, ∀ e ∈ a.events, ∀ g ∈ e.groups, g.law.Positive

variable {m : Mdp α} {s : State} {action : ℕ}

/-- **A decision that can be taken has a successor** when the process is `Positive`. -/
theorem transitions_ne_nil_of_positive (hm : m.Positive) (happ : m.isApplicable s action = true) :
    m.transitions s action ≠ [] := by
  obtain ⟨-, kind, hkind, -⟩ := isApplicable_iff.mp happ
  rcases Nat.lt_or_ge s.remaining (m.cost kind) with hcost | hcost
  · rw [transitions_eq_failed happ hkind hcost]
    exact List.cons_ne_nil _ _
  · have hfirings : ∀ f ∈ m.firings s kind, ∀ g ∈ f.event.groups, g.law.Positive := by
      intro f hf
      obtain ⟨a, ha, he⟩ := exists_action_of_mem_firings hf
      exact hm a ha f.event he
    have hne : fireAll m.core.atoms (m.firings s kind) s.atoms ≠ [] :=
      fireAll_ne_nil hfirings s.atoms
    obtain ⟨x, hx⟩ := List.exists_mem_of_ne_nil _ hne
    have hmem : m.resultOf s kind x.2 ∈ m.successors s action := by
      rw [successors, transitions_eq_collect happ hkind hcost, mem_collect, List.map_map]
      exact List.mem_map_of_mem (f := fun x => m.resultOf s kind x.2) hx
    intro h
    rw [successors, h] at hmem
    exact List.not_mem_nil hmem

end Mdp

end Positive

section Exact

variable {K : Type} [Field K] [LinearOrder K] [IsStrictOrderedRing K] [FloorSemiring K]

/-- The tolerance is less than one. -/
theorem Law.tolerance_lt_one : (tolerance : K) < 1 := by
  change ((1 : ℕ) : K) / ((1000000000 : ℕ) : K) < 1
  rw [Nat.cast_one, div_lt_one (Nat.cast_pos.mpr (by decide)), ← Nat.cast_one, Nat.cast_lt]
  decide

/-- A law that is nearly a distribution has outcomes of positive probability: the sum of a branch
without one would be zero, which is too far from one. -/
theorem Law.IsNearlyDistribution.positive {law : Law K} (h : law.IsNearlyDistribution) :
    law.Positive := by
  intro outcomes houtcomes
  obtain ⟨hnonneg, hsum⟩ := h outcomes houtcomes
  by_contra hnone
  simp only [not_exists, not_and, not_lt] at hnone
  have hzero : (outcomes.map (·.prob)).sum = 0 := by
    refine List.sum_eq_zero fun x hx => ?_
    obtain ⟨o, ho, rfl⟩ := List.mem_map.mp hx
    exact le_antisymm (hnone o ho) (hnonneg o ho)
  rw [hzero, zero_sub, abs_neg, abs_one] at hsum
  exact absurd hsum (not_le.mpr tolerance_lt_one)

namespace Mdp

variable {m : Mdp K} {s t : State} {action : ℕ}

/-- Over exact numbers a built process is `Positive`, by `Law.IsNearlyDistribution.positive`. -/
theorem Built.positive (hm : m.Built) : m.Positive :=
  fun a ha e he g hg => (hm.laws a ha e he g hg).positive

/-- A decision that can be taken has a successor. -/
theorem transitions_ne_nil (hm : m.Built) (happ : m.isApplicable s action = true) :
    m.transitions s action ≠ [] := transitions_ne_nil_of_positive hm.positive happ

end Mdp

end Exact

/-! ### Picking a result -/

section Pick

variable {α β : Type} [Arithmetic α]

/-- **A number picks** with `pickAt` one of the weighted results. -/
theorem Mdp.pickAt_mem {u sum : α} {l : List (α × β)} {x : β} (h : pickAt u sum l = some x) :
    ∃ p, (p, x) ∈ l := by
  induction l generalizing sum with
  | nil => exact absurd h (by simp [pickAt])
  | cons y rest ih =>
      obtain ⟨p, y⟩ := y
      rw [pickAt] at h
      split at h
      · rcases Option.or_eq_some_iff.mp h with h | ⟨-, h⟩
        · obtain ⟨q, hq⟩ := ih h
          exact ⟨q, List.mem_cons_of_mem _ hq⟩
        · exact ⟨p, Option.some.inj h ▸ List.mem_cons_self⟩
      · exact ⟨p, Option.some.inj h ▸ List.mem_cons_self⟩

/-- `pickAt` picks a result if there are any. -/
theorem Mdp.exists_pickAt {l : List (α × β)} (h : l ≠ []) (u sum : α) :
    ∃ x, pickAt u sum l = some x := by
  obtain ⟨⟨p, y⟩, rest, rfl⟩ := List.exists_cons_of_ne_nil h
  rw [pickAt]
  split
  · cases pickAt u (sum + p) rest with
    | none => exact ⟨y, rfl⟩
    | some x => exact ⟨x, rfl⟩
  · exact ⟨y, rfl⟩

end Pick

/-- `span` is at least one tick. -/
theorem ConvertedAction.one_le_span {α : Type} (a : ConvertedAction α) : 1 ≤ a.span := by
  rw [ConvertedAction.span]
  split
  · exact Nat.le_refl 1
  · exact Nat.le_max_right _ _

namespace Mdp

/-- **Every draw picks a successor**: whatever number is drawn, `sample` leads to one of the states
that a decision lists, when it can be taken and all laws leave an outcome possible. -/
theorem sample_mem_successors {α : Type} [Arithmetic α] {m : Mdp α} (hm : m.Positive) {s : State}
    {action : ℕ} (happ : m.isApplicable s action = true) (u : α) :
    m.sample s action u ∈ m.successors s action := by
  obtain ⟨t, ht⟩ := exists_pickAt (transitions_ne_nil_of_positive hm happ) u 0
  obtain ⟨p, hp⟩ := pickAt_mem ht
  rw [sample, ht]
  exact List.mem_map_of_mem (f := Prod.snd) hp

/-! ### Time goes on -/

variable {α : Type} {m : Mdp α} {s t : State} {action : ℕ}

/-- **Every decision takes at least one tick**: `cost` is that of its longest part, or one. -/
theorem one_le_cost (m : Mdp α) (kind : ActionKind) : 1 ≤ m.cost kind := by
  cases kind with
  | start i | instant i | wait => exact Nat.le_refl 1
  | single i =>
      rw [cost]
      cases m.singles[i]? with
      | none => exact Nat.le_refl 1
      | some a => exact a.one_le_span
  | combined j =>
      rw [cost]
      cases m.combinations[j]? with
      | none => exact Nat.le_refl 1
      | some c =>
          cases hmax : ((m.partsOf c).map (·.span)).max? with
          | none => exact Nat.le_of_eq (by simp [hmax])
          | some x =>
              obtain ⟨a, -, rfl⟩ := List.mem_map.mp (List.max?_mem hmax)
              simpa [hmax] using a.one_le_span

/-- `applicable` lists the decisions that can be taken. -/
theorem mem_applicable : action ∈ m.applicable s ↔ m.isApplicable s action = true := by
  rw [applicable, List.mem_filter, List.mem_range, and_iff_right_iff_imp]
  intro happ
  obtain ⟨-, kind, hkind, -⟩ := isApplicable_iff.mp happ
  rw [kind?, Option.map_eq_some_iff] at hkind
  obtain ⟨x, hx, -⟩ := hkind
  exact (Array.getElem?_eq_some_iff.mp hx).1

/-- A decision that can be taken has a name. -/
theorem exists_actionName (happ : m.isApplicable s action = true) :
    ∃ name, m.actionName? action = some name := by
  obtain ⟨-, kind, hkind, -⟩ := isApplicable_iff.mp happ
  obtain ⟨x, hx, -⟩ := Option.map_eq_some_iff.mp hkind
  exact ⟨x.1, by rw [actionName?, hx, Option.map_some]⟩

variable [Arithmetic α]

/-- **The time left goes down** with every decision that does not fail, by `one_le_cost`. -/
theorem remaining_lt (happ : m.isApplicable s action = true) (ht : t ∈ m.successors s action)
    (hlive : t.isFailed = false) : t.remaining < s.remaining := by
  rcases mem_successors ht with ⟨hnot, -⟩ | ⟨-, rfl⟩ | ⟨kind, -, -, -, hcost, atoms, -, rfl⟩
  · exact absurd happ (by simp [hnot])
  · exact absurd hlive (by simp [State.isFailed])
  · have hpos := m.one_le_cost kind
    rw [resultOf, State.remaining]
    omega

/-- **In split mode waiting is always possible** before a failure, so `applicable` is not empty. -/
theorem applicable_ne_nil_of_split (hm : m.Built) (hmode : m.mode = .split)
    (hlive : s.isFailed = false) : m.applicable s ≠ [] := by
  cases hm with
  | split h =>
      exact List.ne_nil_of_mem (mem_applicable.mpr
        (isApplicable_iff.mpr ⟨hlive, .wait, kind?_length h, rfl⟩))
  | combination h =>
      obtain ⟨-, rfl⟩ := ofCombination_eq_ok_iff.mp h
      exact absurd hmode (by simp [combinationProcess])

end Mdp

end DurativePlanning
