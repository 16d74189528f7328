import DurativePlanning.Planner.Evaluation
import DurativePlanning.Proofs.Planner.Outcome

/-!
# In Time

The clock is the only thing that two runs with the same settings and the same seed do not share. It
is looked at for one purpose: whether a limit has been reached. So as long as none has been reached
whenever that is asked, the search, the decision, the episode and the plan come to the same result
at any clock and at any time. Only the seconds that a plan took are its own.

* `Tree.InTime`, `Mdp.DecidesInTime`, `Mdp.EpisodeInTime`, `Mdp.PlansInTime`,
  `Mdp.EvaluatesInTime`: no limit is found to be reached.
* `Mdp.evaluatesInTime_of_close`: a clock that never moves on by as much as a limit reaches none.
* `Tree.run_eq_of_inTime`, `Mdp.decision_eq_of_inTime`, `Mdp.episode_eq_of_inTime`,
  `Mdp.plan_eq_of_inTime`: what is in time has one result.
-/

namespace DurativePlanning

variable {α γ σ τ τ' : Type}

/-- What happened in an episode, however long it took. -/
def Trace.timeless (t : Trace) : Trace := { t with wallSeconds := 0 }

/-! ### The search -/

/-- `outOfTime` does not depend on how much time has passed, as long as it is not too much. -/
theorem outOfTime_eq_of_ne {budget : Option Float} {elapsed elapsed' : ℕ}
    (h : outOfTime budget elapsed ≠ .ok true) (h' : outOfTime budget elapsed' ≠ .ok true) :
    outOfTime budget elapsed = outOfTime budget elapsed' := by
  cases budget with
  | none => rfl
  | some seconds =>
      cases hlimit : nanosecondsOf? seconds with
      | none => simp only [outOfTime, hlimit]
      | some limit =>
          simp only [outOfTime, hlimit, ne_eq, Except.ok.injEq, decide_eq_true_eq, not_le] at h h'
          simp only [outOfTime, hlimit, Nat.not_le.mpr h, Nat.not_le.mpr h']

namespace Tree

variable [SearchArithmetic α]

/-- **Iterations in time**: before none of them `outOfTime` finds the budget to be used up. -/
def InTime (clock : StateM τ ℕ) (began : ℕ) (env : Environment σ α) (config : SearchConfig α) :
    (left : ℕ) → Tree α → σ → τ → Prop
  | 0, _, _, _ => True
  | left + 1, t, s, time =>
    outOfTime config.timeBudget ((clock.run time).1 - began) ≠ .ok true ∧
      match t.iterate env config s with
      | (.error _, _, _) => True
      | (.ok _, t, s) => InTime clock began env config left t s (clock.run time).2

variable {clock : StateM τ ℕ} {clock' : StateM τ' ℕ} {began began' : ℕ} {env : Environment σ α}
  {config : SearchConfig α} {left : ℕ} {t : Tree α} {s : σ} {time : τ} {time' : τ'}

/-- Two runs of the iterations in time, at whatever clocks, give the same result. -/
theorem runFrom_eq_of_inTime {metrics : RunMetrics α} {log : List (Iteration α)}
    (h : InTime clock began env config left t s time)
    (h' : InTime clock' began' env config left t s time') :
    ((runFrom clock began env config left metrics log t s).run time).1 =
      ((runFrom clock' began' env config left metrics log t s).run time').1 := by
  induction left generalizing metrics log t s time time' with
  | zero => rfl
  | succ left ih =>
      obtain ⟨hlook, hnext⟩ := h
      obtain ⟨hlook', hnext'⟩ := h'
      rw [run_runFrom_succ, run_runFrom_succ, outOfTime_eq_of_ne hlook hlook']
      rcases houtOfTime : outOfTime config.timeBudget ((clock'.run time').1 - began') with
        cause | ⟨_ | _⟩
      · rfl
      · rcases hiterate : t.iterate env config s with ⟨cause | i, t', s'⟩
        · rfl
        · rw [hiterate] at hnext hnext'
          exact ih hnext hnext'
      · exact absurd houtOfTime hlook'

/-- **A search in time has one result**, whatever the clock. -/
theorem run_eq_of_inTime
    (h : InTime clock (clock.run time).1 env config config.iterations t s (clock.run time).2)
    (h' : InTime clock' (clock'.run time').1 env config config.iterations t s
      (clock'.run time').2) :
    ((t.run clock env config s).run time).1 = ((t.run clock' env config s).run time').1 :=
  runFrom_eq_of_inTime h h'

end Tree

namespace Mdp

variable [SearchArithmetic α]

/-! ### Decisions and episodes -/

section Episode

variable [WordSource γ]

/-- **A decision in time**: there is nothing to choose from, or the search is `Tree.InTime`. -/
def DecidesInTime (m : Mdp α) (clock : StateM τ ℕ) (config : SearchConfig α) (k : ℕ) (s : State)
    (others : List ℕ) (source : γ) (time : τ) : Prop :=
  others ≠ [] →
    let numbered := (Numbering.empty : StateTable).intern s
    Tree.InTime clock (clock.run time).1 (m.environment k) config config.iterations
      (.ofRoot numbered.1 false) (numbered.2, source) (clock.run time).2

/-- **An episode in time**: before no decision the horizon is found to be reached, and each decision
is `DecidesInTime`. -/
def EpisodeInTime (m : Mdp α) (clock : StateM τ ℕ) (began horizon : ℕ) (config : SearchConfig α)
    (k : ℕ) : (left : ℕ) → State → γ → τ → Prop
  | left, s, source, time =>
    m.finished? s = none →
      (clock.run time).1 - began < horizon ∧
        match m.applicable s, left with
        | first :: others, left + 1 =>
          m.DecidesInTime clock config k s others source (clock.run time).2 ∧
            match (m.decision clock config k s first others source).run (clock.run time).2 with
            | ((.error _, _), _) => True
            | ((.ok action, source), time) =>
              EpisodeInTime m clock began horizon config k left (m.draw s action source).1
                (m.draw s action source).2 time
        | _, _ => True

variable {m : Mdp α} {clock : StateM τ ℕ} {clock' : StateM τ' ℕ} {began began' horizon : ℕ}
  {config : SearchConfig α} {k left : ℕ} {s : State} {steps : List TraceStep} {source : γ}
  {time : τ} {time' : τ'}

/-- **A decision in time has one result.** -/
theorem decision_eq_of_inTime {first : ℕ} {others : List ℕ}
    (h : m.DecidesInTime clock config k s others source time)
    (h' : m.DecidesInTime clock' config k s others source time') :
    ((m.decision clock config k s first others source).run time).1 =
      ((m.decision clock' config k s first others source).run time').1 := by
  rw [decision, decision]
  split
  · rfl
  · next hothers =>
      have hne : others ≠ [] := fun hnil => hothers (by rw [hnil]; rfl)
      have hrun := Tree.run_eq_of_inTime (h hne) (h' hne)
      rcases hnumbered : (Numbering.empty : StateTable).intern s with ⟨key, table⟩
      simp only [hnumbered] at hrun ⊢
      rw [run_bind, run_bind]
      rcases hfound : ((Tree.ofRoot key false).run clock (m.environment k) config
        (table, source)).run time with ⟨found, later⟩
      rcases hfound' : ((Tree.ofRoot key false).run clock' (m.environment k) config
        (table, source)).run time' with ⟨found', later'⟩
      rw [hfound, hfound'] at hrun
      obtain rfl : found = found' := hrun
      rcases found with ⟨_ | _, t, hidden⟩
      · rfl
      · simp only
        cases chosen t first (first :: others) <;> rfl

/-- **An episode in time has one result.** -/
theorem episode_eq_of_inTime
    (h : m.EpisodeInTime clock began horizon config k left s source time)
    (h' : m.EpisodeInTime clock' began' horizon config k left s source time') :
    ((m.episodeFrom clock began horizon config k left s steps source).run time).1 =
      ((m.episodeFrom clock' began' horizon config k left s steps source).run time').1 := by
  induction left generalizing s steps source time time' with
  | zero =>
      rw [run_episodeFrom, run_episodeFrom]
      unfold EpisodeInTime at h h'
      cases hfinished : m.finished? s with
      | some status => rfl
      | none =>
          obtain ⟨hhorizon, -⟩ := h hfinished
          obtain ⟨hhorizon', -⟩ := h' hfinished
          simp only [if_neg (Nat.not_le.mpr hhorizon), if_neg (Nat.not_le.mpr hhorizon')]
          cases m.applicable s <;> rfl
  | succ left ih =>
      rw [run_episodeFrom, run_episodeFrom]
      unfold EpisodeInTime at h h'
      cases hfinished : m.finished? s with
      | some status => rfl
      | none =>
          obtain ⟨hhorizon, hnext⟩ := h hfinished
          obtain ⟨hhorizon', hnext'⟩ := h' hfinished
          simp only [if_neg (Nat.not_le.mpr hhorizon), if_neg (Nat.not_le.mpr hhorizon')]
          cases happlicable : m.applicable s with
          | nil => rfl
          | cons first others =>
              rw [happlicable] at hnext hnext'
              obtain ⟨hdecides, hgoes⟩ := hnext
              obtain ⟨hdecides', hgoes'⟩ := hnext'
              have hsame : ((m.decision clock config k s first others source).run _).1 = _ :=
                decision_eq_of_inTime hdecides hdecides'
              simp only
              rcases hdecision : (m.decision clock config k s first others source).run
                (clock.run time).2 with ⟨decided, later⟩
              rcases hdecision' : (m.decision clock' config k s first others source).run
                (clock'.run time').2 with ⟨decided', later'⟩
              rw [hdecision, hdecision'] at hsame
              obtain rfl : decided = decided' := hsame
              rw [hdecision] at hgoes
              rw [hdecision'] at hgoes'
              rcases decided with ⟨cause | action, source'⟩
              · rfl
              · exact ih hgoes hgoes'

end Episode

/-! ### Plans and evaluations -/

section Plan

variable [SeededSource γ]

variable (γ) in
/-- **A plan in time**: its episode is, by `EpisodeInTime`. -/
def PlansInTime (m : Mdp α) (clock : StateM τ ℕ) (params : PlanParams α) (time : τ) : Prop :=
  ∀ horizon, nanosecondsOf? params.horizonSecs = some horizon →
    m.EpisodeInTime clock (clock.run time).1 horizon (params.searchConfig m.discount) params.k
      (m.deadline + 1) m.initialState (SeededSource.ofSeed params.seed : γ) (clock.run time).2

variable (γ) in
/-- **An evaluation in time**: each of its plans is, begun when the one before it has ended. -/
def EvaluatesInTime (m : Mdp α) (clock : StateM τ ℕ) :
    (runs : ℕ) → PlanParams α → τ → Prop
  | 0, _, _ => True
  | runs + 1, params, time =>
    m.PlansInTime γ clock params time ∧
      EvaluatesInTime m clock runs { params with seed := params.seed + 1 }
        ((m.plan γ clock params).run time).2

variable {m : Mdp α} {clock : StateM τ ℕ} {clock' : StateM τ' ℕ} {params : PlanParams α} {time : τ}
  {time' : τ'}

/-- **A plan in time has one result**, up to `timeless`, whatever the clock. -/
theorem plan_eq_of_inTime (h : m.PlansInTime γ clock params time)
    (h' : m.PlansInTime γ clock' params time') :
    ((m.plan γ clock params).run time).1.map Trace.timeless =
      ((m.plan γ clock' params).run time').1.map Trace.timeless := by
  rw [plan, plan]
  cases params.validate with
  | error fault => rfl
  | ok _ =>
      cases hconfig : (params.searchConfig m.discount).validate with
      | error fault => simp only [hconfig]; rfl
      | ok _ =>
          cases hhorizon : nanosecondsOf? params.horizonSecs with
          | none => simp only [hconfig]; rfl
          | some horizon =>
              rcases hepisode : (m.episodeFrom clock (clock.run time).1 horizon
                (params.searchConfig m.discount) params.k (m.deadline + 1) m.initialState []
                (SeededSource.ofSeed params.seed : γ)).run (clock.run time).2 with ⟨played, later⟩
              rcases hepisode' : (m.episodeFrom clock' (clock'.run time').1 horizon
                (params.searchConfig m.discount) params.k (m.deadline + 1) m.initialState []
                (SeededSource.ofSeed params.seed : γ)).run (clock'.run time').2
                with ⟨played', later'⟩
              obtain rfl : played = played' :=
                calc played = _ := congrArg Prod.fst hepisode.symm
                  _ = _ := episode_eq_of_inTime (h horizon hhorizon) (h' horizon hhorizon)
                  _ = played' := congrArg Prod.fst hepisode'
              simp only [hconfig]
              rw [run_bind, run_bind, hepisode, run_bind, run_bind, hepisode']
              rcases played with cause | ⟨steps, status, s⟩
              · rfl
              · simp only [run_bind, StateT.run_pure, Except.map, Trace.timeless]
                rfl

end Plan

end Mdp

/-! ### Clocks that reach no limit -/

/-- **A clock that never moves on** by as much as the limit of so many `seconds`, as far as
`nanosecondsOf?` gives the limit a form. -/
def StaysWithin (clock : StateM τ ℕ) (seconds : Float) : Prop :=
  ∀ limit, nanosecondsOf? seconds = some limit →
    ∀ time time', (clock.run time).1 - (clock.run time').1 < limit

section Close

variable [SearchArithmetic α] {clock : StateM τ ℕ} {config : SearchConfig α}

/-- Iterations are in time by a clock that never moves on by as much as the budget. -/
theorem Tree.inTime_of_close
    (hclock : ∀ seconds, config.timeBudget = some seconds → StaysWithin clock seconds)
    (env : Environment σ α) (left : ℕ) (t : Tree α) (s : σ) (start time : τ) :
    InTime clock (clock.run start).1 env config left t s time := by
  induction left generalizing t s time with
  | zero => trivial
  | succ left ih =>
      have hlook : outOfTime config.timeBudget ((clock.run time).1 - (clock.run start).1) ≠
          .ok true := by
        cases hbudget : config.timeBudget with
        | none => simp [outOfTime]
        | some seconds =>
            cases hlimit : nanosecondsOf? seconds with
            | none => simp [outOfTime, hlimit]
            | some limit => simpa [outOfTime, hlimit] using hclock seconds hbudget limit hlimit _ _
      refine ⟨hlook, ?_⟩
      rcases t.iterate env config s with ⟨cause | i, t', s'⟩
      · trivial
      · exact ih t' s' _

namespace Mdp

/-- Episodes are in time by a clock that never moves on by as much as the horizon or the budget of a
search. -/
theorem episodeInTime_of_close [WordSource γ] (m : Mdp α) {horizon : ℕ} {start : τ}
    (hhorizon : ∀ time, (clock.run time).1 - (clock.run start).1 < horizon)
    (hclock : ∀ seconds, config.timeBudget = some seconds → StaysWithin clock seconds)
    (k left : ℕ) (s : State) (source : γ) (time : τ) :
    m.EpisodeInTime clock (clock.run start).1 horizon config k left s source time := by
  induction left generalizing s source time with
  | zero =>
      unfold EpisodeInTime
      refine fun _ => ⟨hhorizon time, ?_⟩
      cases m.applicable s <;> trivial
  | succ left ih =>
      unfold EpisodeInTime
      refine fun _ => ⟨hhorizon time, ?_⟩
      cases m.applicable s with
      | nil => trivial
      | cons first others =>
          refine ⟨fun _ => Tree.inTime_of_close hclock _ _ _ _ _ _, ?_⟩
          rcases (m.decision clock config k s first others source).run (clock.run time).2
            with ⟨⟨cause | action, source'⟩, later⟩
          · trivial
          · exact ih _ _ _

/-- **A clock that never moves on by as much as a limit** reaches none, however often it is looked
at. -/
theorem evaluatesInTime_of_close [SeededSource γ] (m : Mdp α) {params : PlanParams α}
    (hhorizon : StaysWithin clock params.horizonSecs)
    (hsearch : StaysWithin clock params.searchTimeSecs) (runs : ℕ) (time : τ) :
    m.EvaluatesInTime γ clock runs params time := by
  induction runs generalizing params time with
  | zero => trivial
  | succ runs ih =>
      constructor
      · intro horizon hlimit
        refine m.episodeInTime_of_close (fun later => hhorizon horizon hlimit later time) ?_ _ _ _ _
          _
        intro seconds hseconds
        obtain rfl : params.searchTimeSecs = seconds := Option.some.inj hseconds
        exact hsearch
      · apply ih
        · exact hhorizon
        · exact hsearch

end Mdp

end Close

end DurativePlanning
