import DurativePlanning.Proofs.Expectation
import DurativePlanning.Proofs.Mdp.Progress

/-!
# The Mass of a Decision

The check of a problem lets every law be off by the tolerance. A decision draws once for each group
of each event that it fires, so that the probabilities of its successors add up to one within as
many factors as there are groups; an event that is guarded may draw less. When the branches of all
laws add up to exactly one, then so do the successors of every decision.

* `Law.Exact`, `Mdp.Exact`: laws whose branches add up to exactly one.
* `Law.SumsWithin`: laws whose branches add up to something between two bounds.
* `Firing.within_program`: the bounds for one event, guarded or not.
* `Mdp.transitions_distribution`: the successors of a decision are a distribution.
-/

namespace DurativePlanning

variable {K : Type} [Field K] [LinearOrder K] [IsStrictOrderedRing K] [FloorSemiring K]

/-! ### Sums of laws -/

namespace Law

/-- The probabilities of every branch of the law add up to **exactly one**. -/
def Exact (law : Law K) : Prop := ∀ outcomes ∈ law.branches, (outcomes.map (·.prob)).sum = 1

/-- No probability is negative, and every branch adds up to something between `low` and `high`. -/
def SumsWithin (low high : K) (law : Law K) : Prop :=
  ∀ outcomes ∈ law.branches, (∀ o ∈ outcomes, 0 ≤ o.prob) ∧
    low ≤ (outcomes.map (·.prob)).sum ∧ (outcomes.map (·.prob)).sum ≤ high

/-- `tolerance` is a billionth. -/
theorem tolerance_eq : (tolerance : K) = 1 / 10 ^ 9 := by
  change ((1 : ℕ) : K) / ((1000000000 : ℕ) : K) = 1 / 10 ^ 9
  norm_num

/-- The check of a law bounds its sums by `tolerance` on both sides of one. -/
theorem IsNearlyDistribution.sumsWithin {law : Law K} (h : law.IsNearlyDistribution) :
    law.SumsWithin (1 - tolerance) (1 + tolerance) := by
  intro outcomes houtcomes
  obtain ⟨hnonneg, hsum⟩ := h outcomes houtcomes
  obtain ⟨hlow, hhigh⟩ := abs_le.mp hsum
  exact ⟨hnonneg, by linarith, by linarith⟩

/-- The sums of an `Exact` law are within one and one. -/
theorem IsNearlyDistribution.sumsWithin_one {law : Law K} (h : law.IsNearlyDistribution)
    (hexact : law.Exact) : law.SumsWithin 1 1 := fun outcomes houtcomes =>
  ⟨(h outcomes houtcomes).1, (hexact outcomes houtcomes).ge, (hexact outcomes houtcomes).le⟩

end Law

/-! ### The mass of a program -/

section Program

variable {low high : K}

omit [FloorSemiring K] in
/-- `draw` has the mass of the branch that applies. -/
theorem EffectGroup.within_draw {g : EffectGroup K} (hg : g.law.SumsWithin low high)
    (holds : GroundFluent → Bool) : (g.draw holds).Within low high := by
  obtain ⟨hnonneg, hlow, hhigh⟩ := hg _ (g.law.select_mem_branches holds g.bindings)
  have hmass : (g.draw holds).mass = ((g.law.select holds g.bindings).map (·.prob)).sum := by
    rw [draw, Weights.mass_ofList, List.map_map]
    rfl
  refine ⟨Weights.prob_ofList_nonneg ?_, hlow.trans_eq hmass.symm, hmass.trans_le hhigh⟩
  intro x hx
  obtain ⟨o, ho, rfl⟩ := List.mem_map.mp hx
  exact hnonneg o ho

omit [FloorSemiring K] in
/-- `program` of a group keeps the mass of its `draw`: assigning moves weight and loses none. -/
theorem EffectGroup.within_program {g : EffectGroup K} (hg : g.law.SumsWithin low high)
    (holds : GroundFluent → Bool) (s : AtomSet) : (g.program holds s).Within low high := by
  rw [program, bind_pure_comp]
  exact (within_draw hg holds).map _

omit [FloorSemiring K] in
/-- `program` of an event draws **once for each group**, so that the bounds are powers of those of
the laws. -/
theorem Event.within_program (table : AtomTable) {e : Event K} (hlow : 0 ≤ low) (hhigh : 0 ≤ high)
    (he : ∀ g ∈ e.groups, g.law.SumsWithin low high) (s : AtomSet) :
    (e.program table s).Within (low ^ e.groups.length) (high ^ e.groups.length) := by
  have hlength : (e.groups.map fun _ => 1).sum = e.groups.length := by simp
  rw [program, ← hlength]
  refine Weights.Within.foldlM hlow hhigh e.groups (fun g hg t => ?_) _
  rw [pow_one, pow_one]
  exact EffectGroup.within_program (he g hg) _ t

omit [FloorSemiring K] in
/-- `program` of an event that is guarded **may draw less**, and is within the same bounds when one
lies between them. -/
theorem Firing.within_program (table : AtomTable) {f : Firing K} (hlow : 0 ≤ low) (hone : low ≤ 1)
    (hhigh : 1 ≤ high) (hf : ∀ g ∈ f.event.groups, g.law.SumsWithin low high) (s : AtomSet) :
    (f.program table s).Within (low ^ f.event.groups.length) (high ^ f.event.groups.length) := by
  have hfires := Event.within_program table hlow (zero_le_one.trans hhigh) hf s
  have hrests : (pure s : Weights K AtomSet).Within (low ^ f.event.groups.length)
      (high ^ f.event.groups.length) :=
    (Weights.Within.sure s).weaken (pow_le_one₀ hlow hone) (one_le_pow₀ hhigh)
  rw [program, Event.guardedProgram]
  split
  · split
    · exact hfires
    · exact hrests
  · exact hfires

end Program

namespace Mdp

/-! ### The mass of a decision -/

/-- The laws of all groups of a process are `Law.Exact`. -/
def Exact (m : Mdp K) : Prop := ∀ a ∈ m.singles, ∀ e ∈ a.events, ∀ g ∈ e.groups, g.law.Exact

variable {m : Mdp K} {s : State} {action : ℕ}

/-- The laws of all groups of a process are `SumsWithin` the same bounds. -/
def LawsWithin (m : Mdp K) (low high : K) : Prop :=
  ∀ a ∈ m.singles, ∀ e ∈ a.events, ∀ g ∈ e.groups, g.law.SumsWithin low high

/-- The laws of a built process are within the tolerance of one. -/
theorem Built.lawsWithin (hm : m.Built) : m.LawsWithin (1 - Law.tolerance) (1 + Law.tolerance) :=
  fun a ha e he g hg => (hm.laws a ha e he g hg).sumsWithin

/-- The exact laws of a built process are within one and one. -/
theorem Built.lawsWithin_one (hm : m.Built) (hexact : m.Exact) : m.LawsWithin 1 1 :=
  fun a ha e he g hg => (hm.laws a ha e he g hg).sumsWithin_one (hexact a ha e he g hg)

/-- **The mass of a decision** lies within as many factors as there are groups, which `drawCount`
counts. -/
theorem within_transitions {low high : K} (hm : m.Built) (hlow : 0 ≤ low) (hone : low ≤ 1)
    (hhigh : 1 ≤ high) (hlaws : m.LawsWithin low high) (s : State) (action : ℕ) :
    (Weights.ofList (m.transitions s action)).Within (low ^ m.drawCount s action)
      (high ^ m.drawCount s action) := by
  have hbounds (n : ℕ) (t : State) : (pure t : Weights K State).Within (low ^ n) (high ^ n) :=
    (Weights.Within.sure t).weaken (pow_le_one₀ hlow hone) (one_le_pow₀ hhigh)
  cases happ : m.isApplicable s action with
  | false =>
      rw [transitions_eq_self happ, Weights.ofList_singleton]
      exact hbounds _ s
  | true =>
      obtain ⟨-, kind, hkind, -⟩ := isApplicable_iff.mp happ
      rcases Nat.lt_or_ge s.remaining (m.cost kind) with hcost | hcost
      · rw [transitions_eq_failed happ hkind hcost, Weights.ofList_singleton]
        exact hbounds _ .failed
      · rw [transitions_eq_collect happ hkind hcost, Weights.ofList_collect, Weights.ofList_map,
          ofList_fireAll (hm.laws_firings s kind), drawCount_eq happ hkind hcost]
        refine Weights.Within.map (Weights.Within.foldlM hlow (zero_le_one.trans hhigh) _ ?_ _) _
        intro f hf t
        obtain ⟨a, ha, he⟩ := exists_action_of_mem_firings hf
        exact Firing.within_program _ hlow hone hhigh (hlaws a ha f.event he) t

/-- The listed probabilities of the successors add up to the `mass`. -/
theorem sum_transitions (m : Mdp K) (s : State) (action : ℕ) :
    ((m.transitions s action).map Prod.fst).sum = (Weights.ofList (m.transitions s action)).mass :=
  (Weights.mass_ofList _).symm

/-- The probabilities of the successors add up to one when the laws are `Exact`, or nothing is
drawn. -/
theorem sum_transitions_eq_one_of_exact (hm : m.Built) (hexact : m.Exact) (s : State)
    (action : ℕ) : ((m.transitions s action).map Prod.fst).sum = 1 := by
  obtain ⟨-, hlow, hhigh⟩ := within_transitions hm zero_le_one le_rfl le_rfl
    (hm.lawsWithin_one hexact) s action
  rw [one_pow] at hlow hhigh
  rw [sum_transitions]
  exact le_antisymm hhigh hlow

/-- `successors` lists each state once. -/
theorem nodup_successors (m : Mdp K) (s : State) (action : ℕ) : (m.successors s action).Nodup := by
  cases happ : m.isApplicable s action with
  | false => simp [successors, transitions_eq_self happ]
  | true =>
      obtain ⟨-, kind, hkind, -⟩ := isApplicable_iff.mp happ
      rcases Nat.lt_or_ge s.remaining (m.cost kind) with hcost | hcost
      · simp [successors, transitions_eq_failed happ hkind hcost]
      · rw [successors, transitions_eq_collect happ hkind hcost]
        exact nodup_collect _

/-- No state has negative weight after a decision. -/
theorem prob_transitions_nonneg (m : Mdp K) (s : State) (action : ℕ) (t : State) :
    0 ≤ (Weights.ofList (m.transitions s action)).prob t :=
  Weights.prob_ofList_nonneg (fun x hx => (m.transitions_pos s action x hx).le) t

/-- The weight of a state after a decision is positive exactly when it is one of the
`successors`. -/
theorem prob_transitions_pos_iff {t : State} :
    0 < (Weights.ofList (m.transitions s action)).prob t ↔ t ∈ m.successors s action := by
  constructor
  · intro hpos
    by_contra hnot
    rw [Weights.prob_ofList_of_notMem hnot] at hpos
    exact lt_irrefl 0 hpos
  · intro ht
    obtain ⟨⟨p, t⟩, hmem, rfl⟩ := List.mem_map.mp ht
    rw [Weights.prob_ofList_of_mem (m.nodup_successors s action) hmem]
    exact m.transitions_pos s action _ hmem

/-- **Every decision is a distribution.** In a built process, in every state and for every number of
a decision, the listed successors are at least one, each listed once and with a positive
probability. The probabilities add up to one within a factor of the tolerance for each group that
the events of the decision have: exactly to one when the branches of all laws do, and also when
nothing is drawn, when the decision cannot be taken, or when it overruns the time left. A decision
that can be taken leads to failure or leaves less time. -/
theorem transitions_distribution (hm : m.Built) (s : State) (action : ℕ) :
    m.transitions s action ≠ [] ∧
    (m.successors s action).Nodup ∧
    (∀ x ∈ m.transitions s action, 0 < x.1) ∧
    (1 - Law.tolerance : K) ^ m.drawCount s action ≤
      ((m.transitions s action).map Prod.fst).sum ∧
    ((m.transitions s action).map Prod.fst).sum ≤
      (1 + Law.tolerance : K) ^ m.drawCount s action ∧
    (m.Exact → ((m.transitions s action).map Prod.fst).sum = 1) ∧
    (m.drawCount s action = 0 → ((m.transitions s action).map Prod.fst).sum = 1) ∧
    (m.isApplicable s action = false → m.transitions s action = [(1, s)]) ∧
    (∀ kind, m.isApplicable s action = true → m.kind? action = some kind →
      s.remaining < m.cost kind → m.transitions s action = [(1, .failed)]) ∧
    (m.isApplicable s action = true →
      ∀ t ∈ m.successors s action, t = .failed ∨ t.remaining < s.remaining) := by
  obtain ⟨-, hlow, hhigh⟩ := within_transitions hm (sub_nonneg.mpr Law.tolerance_lt_one.le)
    (sub_le_self 1 Law.tolerance_nonneg) (le_add_of_nonneg_right Law.tolerance_nonneg)
    hm.lawsWithin s action
  rw [← sum_transitions] at hlow hhigh
  refine ⟨?_, m.nodup_successors s action, m.transitions_pos s action, hlow, hhigh, ?_, ?_,
    transitions_eq_self, ?_, ?_⟩
  · cases happ : m.isApplicable s action with
    | false => simp [transitions_eq_self happ]
    | true => exact transitions_ne_nil hm happ
  · exact fun hexact => sum_transitions_eq_one_of_exact hm hexact s action
  · intro hnone
    rw [hnone, pow_zero] at hlow hhigh
    exact le_antisymm hhigh hlow
  · exact fun kind happ hkind hcost => transitions_eq_failed happ hkind hcost
  · intro happ t ht
    cases t with
    | failed => exact Or.inl rfl
    | running atoms remaining agenda => exact Or.inr (remaining_lt happ ht rfl)

/-- A flip whose probabilities add up to a little more than one: atom 0 comes up true, or stays as
it is. -/
def heavyFlip : ConvertedAction ℚ where
  course := .instant ⟨"flip", [], [], [⟨[⟨0⟩],
    .fixed [⟨1 / 2, [(0, true)]⟩, .unchanged (1 / 2 + 1 / (2 * 10 ^ 9))], []⟩]⟩
  resources := .empty
  combinable := true

/-- The problem whose only action is the heavy flip. -/
def heavyProblem (deadline : ℕ) : ConvertedProblem ℚ :=
  ⟨⟨"heavy", {}, .empty, .empty, [⟨⟨0⟩, true⟩], deadline⟩, [heavyFlip]⟩

/-- The problem of the heavy flip is accepted: its sum is off by less than the tolerance. -/
theorem ofConverted_heavy (deadline : ℕ) :
    ofConverted (heavyProblem deadline) 1 = .ok (splitProcess (heavyProblem deadline) 1) := by
  refine ofConverted_eq_ok_iff.mpr ⟨check_eq_ok_iff.mpr ⟨by norm_num, ?_⟩, rfl⟩
  have hlaw : (Law.fixed [⟨1 / 2, [(0, true)]⟩,
      .unchanged (1 / 2 + 1 / (2 * 10 ^ 9))] : Law ℚ).IsNearlyDistribution := by
    intro branch hbranch
    obtain rfl := List.mem_singleton.mp hbranch
    rw [Law.tolerance_eq]
    norm_num [Outcome.unchanged, abs_le]
  simpa [heavyProblem, heavyFlip, ConvertedAction.events, ConvertedAction.start,
    ConvertedAction.finish?] using hlaw

/-- Nothing is lost of the sum of the law. -/
theorem sum_transitions_heavy :
    (((splitProcess (heavyProblem 1) 1).transitions
      (splitProcess (heavyProblem 1) 1).initialState 0).map Prod.fst).sum =
        1 + 1 / (2 * 10 ^ 9) := by
  have hm := Built.split (ofConverted_heavy 1)
  have hkind : (splitProcess (heavyProblem 1) 1).kind? 0 = some (.instant 0) := rfl
  have hfirings : (splitProcess (heavyProblem 1) 1).firings
      (splitProcess (heavyProblem 1) 1).initialState (.instant 0) = [⟨heavyFlip.start, false⟩] := rfl
  have hlaw : (Law.fixed [⟨1 / 2, [(0, true)]⟩,
      .unchanged (1 / 2 + 1 / (2 * 10 ^ 9))] : Law ℚ).SumsWithin (1 + 1 / (2 * 10 ^ 9))
        (1 + 1 / (2 * 10 ^ 9)) := by
    intro branch hbranch
    obtain rfl := List.mem_singleton.mp hbranch
    norm_num [Outcome.unchanged]
  have hdraw := Event.within_program (e := heavyFlip.start)
    (splitProcess (heavyProblem 1) 1).core.atoms (by norm_num) (by norm_num)
    (List.forall_mem_singleton.mpr hlaw) .empty
  rw [sum_transitions, transitions_eq_collect rfl hkind (by decide), Weights.ofList_collect,
    Weights.ofList_map, Weights.mass_map, ofList_fireAll (hm.laws_firings _ _), hfirings]
  simp only [List.foldlM_cons, List.foldlM_nil, bind_pure]
  exact le_antisymm (hdraw.le_high.trans_eq (pow_one _)) ((pow_one _).symm.trans_le hdraw.low_le)

/-- The heavy flip draws once, and its successors add up to more than one. -/
theorem transitions_distribution_heavy :
    (splitProcess (heavyProblem 1) 1).Built ∧
      (splitProcess (heavyProblem 1) 1).drawCount
        (splitProcess (heavyProblem 1) 1).initialState 0 = 1 ∧
      (splitProcess (heavyProblem 1) 1).transitions
        (splitProcess (heavyProblem 1) 1).initialState 0 ≠ [] ∧
      1 + 1 / (2 * 10 ^ 9) ≤ (1 + Law.tolerance : ℚ) ^ 1 := by
  have hm := Built.split (ofConverted_heavy 1)
  obtain ⟨hne, -, -, -, hhigh, -⟩ :=
    transitions_distribution hm (splitProcess (heavyProblem 1) 1).initialState 0
  exact ⟨hm, rfl, hne, sum_transitions_heavy ▸ hhigh⟩

end Mdp

end DurativePlanning
