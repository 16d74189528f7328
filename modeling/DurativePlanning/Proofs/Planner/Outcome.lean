import DurativePlanning.Planner.Evaluation
import DurativePlanning.Proofs.Checks
import DurativePlanning.Proofs.Mdp.Progress
import DurativePlanning.Proofs.Planner.Decision

/-!
# What a Plan Comes To

Every decision of an episode is made, so the only faults of a plan are those of its settings: one of
them is out of range, or one of the two time limits has no form in nanoseconds. An evaluation
changes nothing in the settings but the seed, so the same holds of it. Where every decision leads to
a successor, an episode is over before the bound on its decisions is reached, so the bound could as
well be greater.

* `Mdp.run_episodeFrom`: what an episode does first.
* `PlanParams.Explains`: the faults that settings have.
* `Mdp.plan_error`, `Mdp.evaluate_error`: a plan and an evaluation fail only by such a fault.
* `Mdp.run_episodeFrom_add`: a greater bound changes nothing.
-/

namespace DurativePlanning

variable {α γ τ : Type}

/-- **The settings of a search that are in range** are those that `SearchConfig.validate`
accepts. -/
theorem SearchConfig.validate_eq_ok_iff [Arithmetic α] {config : SearchConfig α} :
    config.validate = .ok () ↔ config.iterations ≠ 0 ∧
      (∀ seconds, config.timeBudget = some seconds → Arithmetic.isPositive seconds = true) ∧
      Arithmetic.isNonNegative config.c = true ∧ Arithmetic.isNonNegative config.gamma = true ∧
      config.maxDepth ≠ 0 ∧ config.fixedHorizonSteps ≠ 0 := by
  have hbudget : config.timeBudget.all Arithmetic.isPositive = true ↔
      ∀ seconds, config.timeBudget = some seconds → Arithmetic.isPositive seconds = true := by
    cases config.timeBudget with
    | none => simp
    | some seconds => simp
  have hfault : config.validate = .ok () ↔ config.fault? = none := by
    rw [validate]
    cases config.fault? with
    | none => simp
    | some fault => simp
  rw [hfault, ← hbudget]
  simp only [fault?, ite_some_eq_none_iff, Bool.not_eq_true', Bool.not_eq_false, and_true, ne_eq]

/-- **The settings of the planner that are in range** are those that `PlanParams.validate`
accepts. -/
theorem PlanParams.validate_eq_ok_iff {params : PlanParams α} :
    params.validate = .ok () ↔ Arithmetic.isPositive params.horizonSecs = true ∧ params.k ≠ 0 := by
  rw [validate]
  cases Arithmetic.isPositive params.horizonSecs with
  | false => simp
  | true => simp

/-- **What may be wrong with settings** under a discount: a setting that `validate` refuses, or a
time for which `nanosecondsOf?` gives nothing. There is no fault of a search. -/
def PlanParams.Explains [Arithmetic α] (params : PlanParams α) (gamma : α) : PlanError → Prop
  | .invalidParams fault => params.validate = .error fault
  | .config fault => (params.searchConfig gamma).validate = .error fault
  | .search _ => False
  | .unusableTime seconds =>
    seconds ∈ [params.horizonSecs, params.searchTimeSecs] ∧ nanosecondsOf? seconds = none

/-- `Explains` does not depend on the seed. -/
theorem PlanParams.explains_of_seed [Arithmetic α] {params : PlanParams α} {gamma : α}
    {cause : PlanError} {seed : UInt64}
    (h : PlanParams.Explains { params with seed } gamma cause) : params.Explains gamma cause := by
  cases cause with
  | invalidParams | config | search | unusableTime => exact h

namespace Mdp

variable [SearchArithmetic α] {m : Mdp α} {clock : StateM τ ℕ} {cause : PlanError}
  {params : PlanParams α}

section Episode

variable [WordSource γ] {began horizon : ℕ} {config : SearchConfig α} {k left : ℕ} {s : State}
  {steps : List TraceStep} {source : γ} {time : τ}

/-- **What `episodeFrom` does first**: it ends, or it takes a decision and goes on with one less. -/
theorem run_episodeFrom :
    (m.episodeFrom clock began horizon config k left s steps source).run time =
      match m.finished? s with
      | some status => (.ok (steps, status, s), time)
      | none =>
        if horizon ≤ (clock.run time).1 - began then
          (.ok (steps, .horizonElapsed, s), (clock.run time).2)
        else match m.applicable s, left with
          | [], _ => (.ok (steps, .noApplicableAction, s), (clock.run time).2)
          | _ :: _, 0 => (.ok (steps, .horizonElapsed, s), (clock.run time).2)
          | first :: others, left + 1 =>
            match (m.decision clock config k s first others source).run (clock.run time).2 with
            | ((.error cause, _), time) => (.error cause, time)
            | ((.ok action, source), time) =>
              (m.episodeFrom clock began horizon config k left (m.draw s action source).1
                (steps ++ [m.traceStep action (m.draw s action source).1])
                (m.draw s action source).2).run time := by
  rw [episodeFrom]
  cases m.finished? s with
  | some status => rfl
  | none =>
      simp only
      rw [run_bind]
      split
      · rfl
      · cases m.applicable s with
        | nil => rfl
        | cons first others =>
            cases left with
            | zero => rfl
            | succ left =>
                simp only
                rw [run_bind]
                rcases (m.decision clock config k s first others source).run (clock.run time).2
                  with ⟨⟨_ | _, _⟩, _⟩
                · rfl
                · rfl

/-- **An episode fails only by a time budget** for which `nanosecondsOf?` gives nothing. -/
theorem episodeFrom_error
    (h : ((m.episodeFrom clock began horizon config k left s steps source).run time).1 =
      .error cause) :
    ∃ seconds, config.timeBudget = some seconds ∧ nanosecondsOf? seconds = none ∧
      cause = .unusableTime seconds := by
  induction left generalizing s steps source time with
  | zero =>
      -- without a decision left an episode just ends
      rw [run_episodeFrom] at h
      cases happlicable : m.applicable s with
      | nil | cons first others =>
          simp only [happlicable] at h
          split at h
          · exact absurd h (by simp)
          · split at h
            · exact absurd h (by simp)
            · exact absurd h (by simp)
  | succ left ih =>
      rw [run_episodeFrom] at h
      split at h
      · exact absurd h (by simp)
      · split at h
        · exact absurd h (by simp)
        · cases happlicable : m.applicable s with
          | nil =>
              rw [happlicable] at h
              exact absurd h (by simp)
          | cons first others =>
              rw [happlicable] at h
              rcases m.decision_cases clock config k s first others source (clock.run time).2 with
                ⟨action, -, source', time', hdecision⟩ |
                ⟨seconds, source', time', hbudget, hnone, hdecision⟩
              · simp only [hdecision] at h
                exact ih h
              · simp only [hdecision] at h
                exact ⟨seconds, hbudget, hnone, (Except.error.inj h).symm⟩

/-- **A greater bound on the decisions changes nothing**, when every decision leads to a successor
and there is one decision more than there are ticks left: each decision takes at least one tick. -/
theorem run_episodeFrom_add (hm : m.Positive) (hleft : s.isFailed = true ∨ s.remaining < left)
    (extra : ℕ) :
    (m.episodeFrom clock began horizon config k (left + extra) s steps source).run time =
      (m.episodeFrom clock began horizon config k left s steps source).run time := by
  induction left generalizing s steps source time with
  | zero =>
      have hfailed : s.isFailed = true := hleft.resolve_right (Nat.not_lt_zero _)
      have hfinished : m.finished? s = some .deadlineExceeded := by
        simp [finished?, isGoal, hfailed]
      rw [run_episodeFrom, run_episodeFrom, hfinished]
  | succ left ih =>
      rw [Nat.succ_add, run_episodeFrom, run_episodeFrom]
      cases hfinished : m.finished? s with
      | some status => rfl
      | none =>
          have hremaining : s.remaining < left + 1 := by
            refine hleft.resolve_left fun hfailed => ?_
            simp [finished?, isGoal, hfailed] at hfinished
          simp only
          split
          · rfl
          · cases happlicable : m.applicable s with
            | nil => rfl
            | cons first others =>
                rcases m.decision_cases clock config k s first others source (clock.run time).2 with
                  ⟨action, haction, source', time', hdecision⟩ |
                  ⟨seconds, source', time', -, -, hdecision⟩
                · have happ : m.isApplicable s action = true :=
                    mem_applicable.mp (happlicable ▸ haction)
                  have ht := sample_mem_successors hm happ (uniform (α := α) source').1
                  simp only [hdecision]
                  refine ih ?_
                  cases hnext : (m.draw (α := α) s action source').1.isFailed with
                  | true => exact Or.inl rfl
                  | false =>
                      have hlt := remaining_lt happ ht hnext
                      exact Or.inr (Nat.lt_of_lt_of_le hlt (Nat.le_of_lt_succ hremaining))
                · simp only [hdecision]

end Episode

section Plan

variable [SeededSource γ] {time : τ}

/-- **A plan fails only by a fault of its settings**: `Explains` holds of every error of `plan`. -/
theorem plan_error (h : ((m.plan γ clock params).run time).1 = .error cause) :
    params.Explains m.discount cause := by
  rw [plan] at h
  cases hparams : params.validate with
  | error fault =>
      simp only [hparams] at h
      obtain rfl : PlanError.invalidParams fault = cause := Except.error.inj h
      exact hparams
  | ok _ =>
      cases hconfig : (params.searchConfig m.discount).validate with
      | error fault =>
          simp only [hparams, hconfig] at h
          obtain rfl : PlanError.config fault = cause := Except.error.inj h
          exact hconfig
      | ok _ =>
          cases hhorizon : nanosecondsOf? params.horizonSecs with
          | none =>
              simp only [hparams, hconfig, hhorizon] at h
              obtain rfl : PlanError.unusableTime params.horizonSecs = cause := Except.error.inj h
              exact ⟨List.mem_cons_self, hhorizon⟩
          | some horizon =>
              simp only [hparams, hconfig, hhorizon] at h
              rw [run_bind, run_bind] at h
              rcases hepisode : (m.episodeFrom clock (clock.run time).1 horizon
                (params.searchConfig m.discount) params.k (m.deadline + 1) m.initialState []
                (SeededSource.ofSeed params.seed : γ)).run (clock.run time).2 with
                ⟨fault | ⟨steps, status, s⟩, time'⟩
              · rw [hepisode] at h
                obtain rfl : fault = cause := Except.error.inj h
                obtain ⟨seconds, hbudget, hnone, rfl⟩ :=
                  episodeFrom_error (congrArg Prod.fst hepisode)
                obtain rfl : params.searchTimeSecs = seconds := Option.some.inj hbudget
                exact ⟨List.mem_cons_of_mem _ List.mem_cons_self, hnone⟩
              · rw [hepisode] at h
                exact absurd h (by simp)

/-- A plan in whose settings all is in range but the horizon has no form in nanoseconds. -/
theorem plan_of_unusable (hparams : params.validate = .ok ())
    (hconfig : (params.searchConfig m.discount).validate = .ok ())
    (hhorizon : nanosecondsOf? params.horizonSecs = none) :
    ((m.plan γ clock params).run time).1 = .error (.unusableTime params.horizonSecs) := by
  rw [plan]
  simp only [hparams, hconfig, hhorizon]
  rfl

/-- A batch fails only by a fault of its settings, since the seed of a later episode is at no
fault. -/
theorem episodes_error {runs : ℕ}
    (h : ((m.episodes γ clock params runs).run time).1 = .error cause) :
    params.Explains m.discount cause := by
  induction runs generalizing params time with
  | zero => exact absurd h (by simp [episodes])
  | succ runs ih =>
      rw [episodes, run_bind] at h
      rcases hplan : (m.plan γ clock params).run time with ⟨fault | trace, time'⟩
      · rw [hplan] at h
        obtain rfl : fault = cause := Except.error.inj h
        exact plan_error (congrArg Prod.fst hplan)
      · rw [hplan] at h
        simp only at h
        rw [run_bind] at h
        rcases hrest : (m.episodes γ clock { params with seed := params.seed + 1 } runs).run time'
          with ⟨fault | traces, time''⟩
        · rw [hrest] at h
          obtain rfl : fault = cause := Except.error.inj h
          exact PlanParams.explains_of_seed (ih (congrArg Prod.fst hrest))
        · rw [hrest] at h
          exact absurd h (by simp)

/-- **An evaluation fails only by a fault of its settings.** -/
theorem evaluate_error {runs : ℕ}
    (h : ((m.evaluate γ clock runs params).run time).1 = .error cause) :
    params.Explains m.discount cause := by
  rw [evaluate, run_bind] at h
  rcases hepisodes : (m.episodes γ clock params runs).run time with ⟨fault | traces, time'⟩
  · rw [hepisodes] at h
    obtain rfl : fault = cause := Except.error.inj h
    exact episodes_error (congrArg Prod.fst hepisodes)
  · rw [hepisodes] at h
    exact absurd h (by simp)

/-- An evaluation of some episodes whose first plan fails. -/
theorem evaluate_of_plan_error {runs : ℕ} (hruns : runs ≠ 0)
    (h : ((m.plan γ clock params).run time).1 = .error cause) :
    ((m.evaluate γ clock runs params).run time).1 = .error cause := by
  obtain ⟨runs, rfl⟩ := Nat.exists_eq_succ_of_ne_zero hruns
  rcases hplan : (m.plan γ clock params).run time with ⟨result, time'⟩
  rw [hplan] at h
  obtain rfl : result = .error cause := h
  rw [evaluate, run_bind, episodes, run_bind, hplan]
  rfl

end Plan

end Mdp

end DurativePlanning
