import DurativePlanning.Proofs.Planner.Asked
import DurativePlanning.Proofs.Planner.Choice
import DurativePlanning.Proofs.Search.Returns
import DurativePlanning.Proofs.Search.Selection

/-!
# The Returns Behind a Decision

The planner pays a step by the goals that it gains, as a fraction of all goals. So a search over the
process is paid between zero and one for each step, and what it records stays within its depth. The
sum of the rewards along a path says how many goals the path has gained; it says too much by just
those goals that were lost on the way.

* `Mdp.environment_paysUnit`: the process pays between zero and one.
* `Mdp.Built.discount_bounds`: a built process has a discount between zero and one.
* `Mdp.recordedSearch_within`: the returns that the search behind a decision records.
* `Mdp.returns_bounded`: rewards along paths, and returns behind decisions.
-/

namespace DurativePlanning

variable {γ τ K : Type} [Field K] [LinearOrder K] [IsStrictOrderedRing K] [FloorSemiring K]

namespace Mdp

/-- **The process pays between zero and one** for each step: `environment` is `PaysUnit`. -/
theorem environment_paysUnit [WordSource γ] (m : Mdp K) (k : ℕ) :
    (m.environment (γ := γ) k).PaysUnit := by
  intro key position hidden
  have hnothing : (0 : K) ≤ 0 ∧ (0 : K) ≤ 1 := ⟨le_rfl, zero_le_one⟩
  cases hs : hidden.1.get? key with
  | none => simpa only [environment, hs] using hnothing
  | some s =>
      cases haction : (m.applicable s)[position]? with
      | none => simpa only [environment, hs, haction] using hnothing
      | some action =>
          rw [environment_step hs haction]
          exact ⟨m.progress_nonneg s _, m.progress_le_one s _⟩

/-- A built process has a **discount between zero and one**. -/
theorem Built.discount_bounds {m : Mdp K} (hm : m.Built) : 0 ≤ m.discount ∧ m.discount ≤ 1 := by
  cases hm with
  | split h =>
      obtain ⟨hcheck, rfl⟩ := ofConverted_eq_ok_iff.mp h
      exact (check_eq_ok_iff.mp hcheck).1
  | combination h =>
      obtain ⟨hcheck, rfl⟩ := ofCombination_eq_ok_iff.mp h
      exact (check_eq_ok_iff.mp hcheck).1

variable [Elementary K] {m : Mdp K}

/-- **The search behind a decision** records returns between zero and `maxDepth`, on every edge of
its tree and in every entry of its log. -/
theorem recordedSearch_within [WordSource γ] (hm : m.Built) (params : PlanParams K)
    (clock : StateM τ ℕ) (s : State) (source : γ) (time : τ) :
    let result :=
      ((m.recordedSearch clock (params.searchConfig m.discount) params.k s source).run time).1
    result.2.1.Within params.searchDepth ∧
      ∀ metrics its, result.1 = .ok (metrics, its) →
        ∀ i ∈ its, 0 ≤ i.totalReturn ∧ i.totalReturn ≤ params.searchDepth := by
  have henv : (m.environment (γ := γ) params.k).recorded.PaysUnit := fun state action s =>
    m.environment_paysUnit params.k state action s.1
  obtain ⟨hgamma, hgamma'⟩ := hm.discount_bounds
  intro result
  have hends : Tree.Ends (fun _ its (t : Tree K) _ => t.Within params.searchDepth ∧
      ∀ i ∈ its, 0 ≤ i.totalReturn ∧ i.totalReturn ≤ params.searchDepth)
      (fun _ t => t.Within params.searchDepth) result :=
    Tree.run_within henv hgamma hgamma' clock _ false _ time
  rcases result with ⟨cause | ⟨metrics, its⟩, t, hidden⟩
  · exact ⟨hends, fun _ _ h => absurd h (by simp)⟩
  · refine ⟨hends.1, fun metrics' its' h i hi => ?_⟩
    obtain ⟨rfl, rfl⟩ := Prod.mk.inj (Except.ok.inj h)
    exact hends.2 i (List.mem_reverse.mpr hi)

/-- **Rewards are honest about goals, and returns are bounded.** Let a process be built.

* Along a path of states that have not failed, such as any run without the failure state, the
  rewards add up, counted in goals, to what the path has gained in the end and once more what it has
  lost on the way. So they are worth at least what it has gained in the end, and just that exactly
  when no goal that held is ever lost.
* The reward of a step lies between zero and one, and so does that of a failure.
* The return of every iteration behind a decision, and the mean and the greatest return of every
  edge that was visited, lie between zero and the search depth, and the mean is not above the
  greatest. -/
theorem returns_bounded (hm : m.Built) :
    (∀ {n : ℕ} {state : ℕ → State}, (∀ k ≤ n, (state k).isFailed = false) →
      let rewards := ∑ k ∈ Finset.range n, m.progress (state k) (state (k + 1))
      let net : K := m.goalsSatisfied (state n) - m.goalsSatisfied (state 0)
      m.goalCount * rewards =
        net + ∑ k ∈ Finset.range n, (m.lost (state k) (state (k + 1)) : K) ∧
      net / m.goalCount ≤ rewards ∧
      (rewards = net / m.goalCount ↔ ∀ k < n, ∀ g ∈ m.core.goals,
        (state k).satisfies g = true → (state (k + 1)).satisfies g = true)) ∧
    (∀ s t, 0 ≤ m.progress s t ∧ m.progress s t ≤ 1) ∧
    ∀ {γ τ : Type} [WordSource γ] (params : PlanParams K) (clock : StateM τ ℕ) (s : State)
      (source : γ) (time : τ),
      let config := params.searchConfig m.discount
      let search := (m.recordedSearch clock config params.k s source).run time
      (∀ first others, others ≠ [] →
        (m.decision clock config params.k s first others source).run time =
          (decided first others (forget search.1), search.2)) ∧
      (∀ metrics its, search.1.1 = .ok (metrics, its) →
        ∀ i ∈ its, 0 ≤ i.totalReturn ∧ i.totalReturn ≤ params.searchDepth) ∧
      ∀ p a e, search.1.2.1.edge? p a = some e → e.stats.visits ≠ 0 →
        0 ≤ e.stats.q ∧ e.stats.q ≤ e.stats.best ∧ e.stats.best ≤ params.searchDepth := by
  refine ⟨fun hlive => ⟨goalCount_mul_sum_progress hlive, sub_div_le_sum_progress hlive,
    sum_progress_eq_iff hlive⟩, fun s t => ⟨m.progress_nonneg s t, m.progress_le_one s t⟩, ?_⟩
  intro γ τ _ params clock s source time config search
  refine ⟨fun first others hothers => run_decision hothers, ?_⟩
  obtain ⟨hwithin, hits⟩ := recordedSearch_within hm params clock s source time
  exact ⟨hits, fun p a e he hvisits => hwithin.edge he hvisits⟩

/-- A room in which the light should be on and the window closed. Airing it opens the window, and
one comes in with the light. -/
def room : CombinationProblem ℚ where
  core := ⟨"room", {}, .empty, .empty, [⟨⟨0⟩, true⟩, ⟨⟨1⟩, false⟩], 3⟩
  singles := [serve "air" [⟨⟨0⟩, true⟩, ⟨⟨1⟩, true⟩], serve "close" [⟨⟨1⟩, false⟩]]
  combinations := []

/-- One airs the room, and then closes the window. -/
noncomputable def evening : ℕ → State
  | 0 => (combinationProcess room 1).initialState
  | k + 1 => (combinationProcess room 1).sample (evening k) k 0

/-- Three iterations of depth two. -/
def threeIterations : PlanParams ℚ := ⟨90, 1, 2, 1, .avg, 1, 0, 3⟩

attribute [local instance] Elementary.standIn wordsInOrder

/-- In the evening the window is opened, which loses a goal, and closed again: the two rewards make
up two goals, of which one is left in the end. A search of depth two puts no more than two on any
edge. -/
theorem returns_bounded_room :
    let m := combinationProcess room 1
    ofCombination room 1 = .ok m ∧ (∀ k ≤ 2, (evening k).isFailed = false) ∧
    (m.goalsSatisfied (evening 0), m.goalsSatisfied (evening 2)) = (1, 2) ∧
    2 * ∑ k ∈ Finset.range 2, m.progress (evening k) (evening (k + 1)) = 1 + 1 ∧
    ∀ (source : List UInt64) (p a : ℕ) (e : Edge ℚ),
      ((m.recordedSearch (pure 0 : StateM Unit ℕ) (threeIterations.searchConfig 1) 1 (evening 0)
        source).run ()).1.2.1.edge? p a = some e → e.stats.visits ≠ 0 →
          0 ≤ e.stats.q ∧ e.stats.q ≤ e.stats.best ∧ e.stats.best ≤ 2 := by
  intro m
  have hbuilt : ofCombination room 1 = .ok m := rfl
  have hlive : ∀ k ≤ 2, (evening k).isFailed = false := by decide +kernel
  have hgoals : m.goalCount = 2 ∧ m.goalsSatisfied (evening 0) = 1 ∧
      m.goalsSatisfied (evening 2) = 2 ∧ m.lost (evening 0) (evening 1) = 1 ∧
      m.lost (evening 1) (evening 2) = 0 := by decide +kernel
  obtain ⟨hcount, hfirst, hlast, hlost, hlost'⟩ := hgoals
  obtain ⟨hpath, -, hsearch⟩ := returns_bounded (.combination hbuilt)
  obtain ⟨hrewards, -⟩ := hpath hlive
  have hlosses : ∑ k ∈ Finset.range 2, (m.lost (evening k) (evening (k + 1)) : ℚ) = 1 := by
    rw [Finset.sum_range_succ, Finset.sum_range_one, hlost, hlost']
    norm_num
  refine ⟨hbuilt, hlive, by rw [hfirst, hlast], ?_, fun source p a e => ?_⟩
  · rw [hcount, hfirst, hlast, hlosses] at hrewards
    exact_mod_cast hrewards.trans (by norm_num)
  · exact_mod_cast (hsearch threeIterations (pure 0) (evening 0) source ()).2.2 p a e

end Mdp

end DurativePlanning
