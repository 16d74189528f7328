import DurativePlanning.Planner.Decision
import DurativePlanning.Proofs.Search.Growth

/-!
# Every Decision Is Made

The process is an environment that chooses only what it offers. So the search behind a decision
cannot fail, whatever numbers are drawn, and however much time it is given, as long as that time has
a form in nanoseconds: it ends with a tree whose root can be read, and the decision is one of those
that can be taken.

* `Mdp.rolloutChoice_lt`: a rollout takes one of the actions offered.
* `Mdp.decision_cases`: a decision is made, or a time budget has no form in nanoseconds.
* `Mdp.exists_decision`: a decision is made, and it is one of those that can be taken.
-/

namespace DurativePlanning

variable {α γ τ : Type}

/-- `swapIfInBounds` leaves the entries of an array what they are. -/
theorem mem_swapIfInBounds {β : Type} {xs : Array β} {i j : ℕ} {x : β} :
    x ∈ xs.swapIfInBounds i j ↔ x ∈ xs := by
  rw [Array.swapIfInBounds_def]
  split
  · split
    · exact (Array.swap_perm _ _).mem_iff
    · rfl
  · rfl

namespace Mdp

section Rollout

variable [Arithmetic α] [WordSource γ] {m : Mdp α}

/-- `betterOf` keeps to the candidates below a count. -/
theorem betterOf_fst {best : Option (ℕ × α)} {candidate count : ℕ} {score : α}
    (hbest : ∀ b ∈ best, b.1 < count) (hcandidate : candidate < count) :
    (betterOf best candidate score).1 < count := by
  cases best with
  | none => exact hcandidate
  | some b =>
      rw [betterOf]
      split
      · exact hbest b rfl
      · exact hcandidate

/-- `bestOfDraws` keeps to the members of the pool, which are below the count. -/
theorem bestOfDraws_lt {score : ℕ → α} {draws drawn count : ℕ} {pool : Array ℕ}
    {best : Option (ℕ × α)} {source : γ} (hcount : 0 < count) (hpool : ∀ x ∈ pool, x < count)
    (hbest : ∀ b ∈ best, b.1 < count) :
    ∀ b ∈ (bestOfDraws score draws drawn pool best source).1, b.1 < count := by
  induction draws generalizing drawn pool best source with
  | zero => exact hbest
  | succ draws ih =>
      have hswapped : ∀ i, ∀ x ∈ pool.swapIfInBounds drawn i, x < count :=
        fun i x hx => hpool x (mem_swapIfInBounds.mp hx)
      refine ih (hswapped _) fun b hb => ?_
      obtain rfl := Option.mem_some.mp hb
      refine betterOf_fst hbest ?_
      rw [Array.getD_eq_getD_getElem?]
      cases hx : (pool.swapIfInBounds drawn _)[drawn]? with
      | none => exact hcount
      | some x => exact hswapped _ x (Array.mem_of_getElem? hx)

/-- **A rollout takes one of the actions offered**: `rolloutChoice` is below the count. -/
theorem rolloutChoice_lt {s : State} {count k : ℕ} {source : γ} (hcount : 0 < count) :
    (m.rolloutChoice s count k source).1 < count := by
  have hbest : ∀ b ∈ (bestOfDraws (m.candidateScore s (m.applicable s)) (min k count) 0
      (Array.range count) none source).1, b.1 < count :=
    bestOfDraws_lt hcount (fun x hx => Array.mem_range.mp hx) fun b hb => absurd hb (by simp)
  rw [rolloutChoice]
  rcases hdraws : bestOfDraws (m.candidateScore s (m.applicable s)) (min k count) 0
    (Array.range count) none source with ⟨_ | b, source'⟩
  · exact hcount
  · rw [hdraws] at hbest
    exact hbest b rfl

/-- The process chooses only what it offers. -/
theorem environment_choose_lt (m : Mdp α) (k key : ℕ) {count : ℕ} (hidden : StateTable × γ)
    (hcount : count ≠ 0) : ((m.environment k).choose key count hidden).1 < count := by
  simp only [environment]
  split
  · exact Nat.pos_of_ne_zero hcount
  · exact rolloutChoice_lt (Nat.pos_of_ne_zero hcount)

end Rollout

variable [SearchArithmetic α]

/-- What is `chosen` from a tree whose root can be read is one of the decisions that can be
taken. -/
theorem exists_chosen {t : Tree α} (ht : t.WellFormed) (first : ℕ) (others : List ℕ) :
    ∃ action ∈ first :: others, chosen t first (first :: others) = .ok action := by
  obtain ⟨n, hn, -⟩ := ht.root
  have hroot : ∃ edges, t.rootEdges = .ok edges := ⟨_, by rw [Tree.rootEdges, hn]⟩
  obtain ⟨edges, hedges⟩ := hroot
  obtain ⟨best, hbest⟩ : ∃ best, t.bestByVisits = .ok best := by
    rw [Tree.bestByVisits, hedges]
    exact ⟨_, rfl⟩
  refine ⟨(best.bind ((first :: others)[·]?)).getD first, ?_, ?_⟩
  · cases hchosen : best.bind ((first :: others)[·]?) with
    | none => exact List.mem_cons_self
    | some action =>
        obtain ⟨i, -, hi⟩ := Option.bind_eq_some_iff.mp hchosen
        exact List.mem_of_getElem? hi
  · rw [chosen, hbest]
    rfl

/-- **A decision is made**, and it is one of those that can be taken, unless the search has a time
budget for which `nanosecondsOf?` gives nothing. -/
theorem decision_cases [WordSource γ] (m : Mdp α) (clock : StateM τ ℕ) (config : SearchConfig α)
    (k : ℕ) (s : State) (first : ℕ) (others : List ℕ) (source : γ) (time : τ) :
    (∃ action ∈ first :: others, ∃ source' time',
      (m.decision clock config k s first others source).run time =
        ((.ok action, source'), time')) ∨
    ∃ seconds source' time', config.timeBudget = some seconds ∧ nanosecondsOf? seconds = none ∧
      (m.decision clock config k s first others source).run time =
        ((.error (.unusableTime seconds), source'), time') := by
  rw [decision]
  split
  · exact Or.inl ⟨first, List.mem_cons_self, source, time, rfl⟩
  · rcases hintern : (Numbering.empty : StateTable).intern s with ⟨key, table⟩
    have hchoose : ∀ key count (hidden : StateTable × γ), count ≠ 0 →
        ((m.environment k).choose key count hidden).1 < count :=
      fun key _ hidden hcount => m.environment_choose_lt k key hidden hcount
    have hends := Tree.run_ends (Tree.wellFormed_ofRoot (α := α) key false) clock config hchoose
      (table, source) time
    rcases hrun : ((Tree.ofRoot key false).run clock (m.environment k) config
      (table, source)).run time with ⟨⟨cause | ⟨metrics, log⟩, t, hidden⟩, time'⟩
    · rw [hrun] at hends
      obtain ⟨seconds, hbudget, hnone, rfl⟩ := hends
      refine Or.inr ⟨seconds, hidden.2, time', hbudget, hnone, ?_⟩
      rw [run_bind, hrun]
      rfl
    · rw [hrun] at hends
      obtain ⟨action, haction, hchosen⟩ := exists_chosen (α := α) hends first others
      refine Or.inl ⟨action, haction, hidden.2, time', ?_⟩
      rw [run_bind, hrun]
      simp only [hchosen]
      rfl

/-- **A decision is made**, and it is one of those that can be taken. -/
theorem exists_decision [WordSource γ] (m : Mdp α) (clock : StateM τ ℕ) {config : SearchConfig α}
    (htime : ∀ seconds, config.timeBudget = some seconds → nanosecondsOf? seconds ≠ none) (k : ℕ)
    (s : State) (first : ℕ) (others : List ℕ) (source : γ) (time : τ) :
    ∃ action ∈ first :: others, ∃ source' time',
      (m.decision clock config k s first others source).run time =
        ((.ok action, source'), time') := by
  rcases m.decision_cases clock config k s first others source time with
    h | ⟨seconds, -, -, hbudget, hnone, -⟩
  · exact h
  · exact absurd hnone (htime seconds hbudget)

end Mdp

end DurativePlanning
