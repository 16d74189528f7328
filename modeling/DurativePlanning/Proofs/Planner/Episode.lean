import DurativePlanning.Planner.Episode
import DurativePlanning.Proofs.Mdp.Accepted
import DurativePlanning.Proofs.Mdp.Doubles
import DurativePlanning.Proofs.Planner.Decision
import DurativePlanning.Random.ChaCha

/-!
# Episodes Are Legal Runs

An episode that is not cut short by the clock is a run of the process: it begins in the initial
state, takes one decision after the other that can be taken, moves each time to a listed successor,
and goes on until it has reached the goals, has failed, or can do nothing. Whatever the search
behind a decision finds, and whatever numbers are drawn, the time left goes down with each decision,
so that an episode ends. None of this depends on how numbers are rounded, and nothing is assumed of
the functions that rank actions.

Over exact numbers each of these successors has positive probability. Over doubles it has when
nothing underflows in the decision; a successor whose probability was rounded to zero stays listed,
and can be picked.

* `Mdp.Plays`, `Mdp.Settles`: legal decisions from a state on, and why an episode ends in a state.
* `Mdp.episodeFrom_performs`: every episode is a legal play that settles.
* `Mdp.Plays.elapsed_lt`: time goes on during a play.
* `Mdp.Records`: what a trace says of the run that it records.
* `Mdp.plan_is_legal_run`: the trace of a plan over doubles, and `Mdp.exists_exact_run` over exact
  numbers.
* `Mdp.plan_flint_impossible`: a plan that leads to a state of probability zero.
-/

namespace DurativePlanning

/-- A clock with given readings. -/
def readings (r : ℕ → ℕ) : StateM ℕ ℕ := fun i => (r i, i + 1)

/-- The clock shows its next reading and moves on. -/
theorem run_readings (r : ℕ → ℕ) (i : ℕ) : (readings r).run i = (r i, i + 1) := rfl

/-- A sequence with one more entry at its beginning. -/
def prepend {β : Type} (x : β) (f : ℕ → β) : ℕ → β
  | 0 => x
  | k + 1 => f k

namespace Mdp

/-! ### What the status says -/

section

variable {α : Type} {m : Mdp α} {s : State} {status : PlanStatus}

/-- `isGoal` holds of a state that has not failed and satisfies all goals. -/
theorem isGoal_iff : m.isGoal s = true ↔
    s.isFailed = false ∧ ∀ g ∈ m.core.goals, s.satisfies g = true := by
  cases hfailed : s.isFailed with
  | true => simp [isGoal, hfailed]
  | false =>
      simp only [isGoal, goalsSatisfied, goalCount, hfailed, Bool.not_false, Bool.true_and,
        beq_iff_eq, Bool.false_eq_true, if_false, true_and]
      exact List.countP_eq_length

/-- `finished?` gives no status to a state that is no goal and has not failed. -/
theorem finished?_eq_none_iff :
    m.finished? s = none ↔ m.isGoal s = false ∧ s.isFailed = false := by
  rw [finished?]
  cases m.isGoal s <;> cases s.isFailed <;> simp

/-- Why an episode ends in a state: `finished?` gives the status, or nothing can be done there. -/
def Settles (m : Mdp α) (s : State) (status : PlanStatus) : Prop :=
  m.finished? s = some status ∨
    (m.finished? s = none ∧ m.applicable s = [] ∧ status = .noApplicableAction)

/-- **What the status says** of the state in which an episode settles, one equivalence for each
status. -/
theorem Settles.status_iff (h : m.Settles s status) :
    (status = .goalReached ↔
      s.isFailed = false ∧ ∀ g ∈ m.core.goals, s.satisfies g = true) ∧
    (status = .deadlineExceeded ↔ s.isFailed = true) ∧
    (status = .noApplicableAction ↔ s.isFailed = false ∧
      (¬∀ g ∈ m.core.goals, s.satisfies g = true) ∧ m.applicable s = []) ∧
    status ≠ .horizonElapsed := by
  have hgoal := isGoal_iff (m := m) (s := s)
  rcases h with h | ⟨h, hnone, rfl⟩
  · rw [finished?] at h
    cases hg : m.isGoal s with
    | true =>
        obtain ⟨hlive, hall⟩ := hgoal.mp hg
        obtain rfl : PlanStatus.goalReached = status := by simpa [hg] using h
        exact ⟨iff_of_true rfl ⟨hlive, hall⟩, by simp [hlive],
          iff_of_false (by simp) fun h => h.2.1 hall, by simp⟩
    | false =>
        cases hfailed : s.isFailed with
        | true =>
            obtain rfl : PlanStatus.deadlineExceeded = status := by simpa [hg, hfailed] using h
            simp
        | false => exact absurd h (by simp [hg, hfailed])
  · obtain ⟨hg, hlive⟩ := finished?_eq_none_iff.mp h
    have hnot : ¬∀ g ∈ m.core.goals, s.satisfies g = true := fun hall => by
      simp [hgoal.mpr ⟨hlive, hall⟩] at hg
    exact ⟨iff_of_false (by simp) fun h => hnot h.2, by simp [hlive],
      iff_of_true rfl ⟨hlive, hnot, hnone⟩, by simp⟩

end

/-! ### Legal plays -/

section

variable {α : Type} [Arithmetic α]

/-- **A legal play** of `n` decisions from a state on: nothing has ended before a decision, the
decision can be taken, and the next state is a listed successor. -/
structure Plays (m : Mdp α) (s : State) (n : ℕ) (state : ℕ → State) (action : ℕ → ℕ) : Prop where
  begins : state 0 = s
  continues : ∀ k < n, m.finished? (state k) = none
  applicable : ∀ k < n, m.isApplicable (state k) (action k) = true
  follows : ∀ k < n, state (k + 1) ∈ m.successors (state k) (action k)

/-- **An episode is a legal play** from a state on: its steps are those recorded before and the
`traceStep`s of the play, and it settles where the play ends. -/
def Performs (m : Mdp α) (s : State) (steps : List TraceStep)
    (result : Except PlanError (List TraceStep × PlanStatus × State)) : Prop :=
  ∃ n state action status,
    result = .ok (steps ++ (List.range n).map (fun k => m.traceStep (action k) (state (k + 1))),
      status, state n) ∧
    m.Plays s n state action ∧ m.Settles (state n) status

variable {m : Mdp α} {s t : State} {a n k : ℕ} {state : ℕ → State} {action : ℕ → ℕ}
  {steps : List TraceStep} {status : PlanStatus}
  {result : Except PlanError (List TraceStep × PlanStatus × State)}

/-- `Plays` of no decision stay where they are. -/
theorem plays_zero (m : Mdp α) (s : State) : m.Plays s 0 (fun _ => s) fun _ => 0 :=
  ⟨rfl, fun _ hk => absurd hk (Nat.not_lt_zero _), fun _ hk => absurd hk (Nat.not_lt_zero _),
    fun _ hk => absurd hk (Nat.not_lt_zero _)⟩

/-- A play of one decision more, from the state before it. -/
theorem Plays.cons (h : m.Plays t n state action) (hfinished : m.finished? s = none)
    (happ : m.isApplicable s a = true) (ht : t ∈ m.successors s a) :
    m.Plays s (n + 1) (prepend s state) (prepend a action) := by
  refine ⟨rfl, ?_, ?_, ?_⟩
  · rintro (_ | k) hk
    · exact hfinished
    · exact h.continues k (by omega)
  · rintro (_ | k) hk
    · exact happ
    · exact h.applicable k (by omega)
  · rintro (_ | k) hk
    · obtain rfl : state 0 = t := h.begins
      exact ht
    · exact h.follows k (by omega)

/-- An episode that settles at once performs the play of no decision. -/
theorem Performs.stop (h : m.Settles s status) (steps : List TraceStep) :
    m.Performs s steps (.ok (steps, status, s)) :=
  ⟨0, _, _, status, by simp, plays_zero m s, h⟩

/-- An episode that takes a decision and then performs a play from the successor, performs the play
with the decision put before it. -/
theorem Performs.step (hfinished : m.finished? s = none) (happ : m.isApplicable s a = true)
    (ht : t ∈ m.successors s a)
    (h : m.Performs t (steps ++ [m.traceStep a t]) result) : m.Performs s steps result := by
  obtain ⟨n, state, action, status, rfl, hplays, hsettles⟩ := h
  refine ⟨n + 1, _, _, status, ?_, hplays.cons hfinished happ ht, hsettles⟩
  obtain rfl : state 0 = t := hplays.begins
  rw [List.range_succ_eq_map, List.map_cons, List.map_map, List.append_assoc]
  rfl

/-! ### Time goes on during a play -/

/-- A play from the initial state is a run. -/
theorem Plays.isRun (h : m.Plays m.initialState n state action) : m.IsRun n state action :=
  ⟨h.begins, h.applicable, h.follows⟩

/-- Nothing has failed before the end of a play. -/
theorem Plays.not_failed (h : m.Plays s n state action) (hk : k < n) :
    (state k).isFailed = false :=
  (finished?_eq_none_iff.mp (h.continues k hk)).2

/-- Each decision of a play uses up some of the time. -/
theorem Plays.remaining_add_le (h : m.Plays s n state action) (hk : k < n) :
    (state k).remaining + k ≤ s.remaining := by
  induction k with
  | zero => exact Nat.le_of_eq (congrArg State.remaining h.begins)
  | succ k ih =>
      have hlt := remaining_lt (h.applicable k (by omega)) (h.follows k (by omega))
        (h.not_failed hk)
      have hle := ih (by omega)
      omega

/-- **A play ends**: it has at most one decision more than there are ticks left, by
`Plays.remaining_add_le`. -/
theorem Plays.length_le (h : m.Plays s n state action) : n ≤ s.remaining + 1 := by
  cases n with
  | zero => exact Nat.zero_le _
  | succ k =>
      have hle := h.remaining_add_le (Nat.lt_succ_self k)
      omega

/-- **Time goes on** with each decision of a play from the initial state, unless it is the last one
and leads to the failed state, for which all time is spent. -/
theorem Plays.elapsed_lt (h : m.Plays m.initialState n state action) (hk : k < n) :
    m.elapsed (state k) < m.elapsed (state (k + 1)) ∨
      (k + 1 = n ∧ (state n).isFailed = true ∧ m.elapsed (state n) = m.deadline) := by
  have hle := h.remaining_add_le hk
  have hdeadline : m.initialState.remaining = m.deadline := rfl
  cases hlive : (state (k + 1)).isFailed with
  | false =>
      have hlt := remaining_lt (h.applicable k hk) (h.follows k hk) hlive
      simp only [elapsed]
      omega
  | true =>
      have hlast : k + 1 = n := by
        by_contra hne
        have hnot := h.not_failed (k := k + 1) (by omega)
        exact absurd (hlive.symm.trans hnot) (by simp)
      subst hlast
      refine Or.inr ⟨rfl, hlive, ?_⟩
      cases hstate : state (k + 1) with
      | failed => rfl
      | running atoms remaining agenda => simp [hstate, State.isFailed] at hlive

end

/-! ### Every episode is a legal play -/

section Episodes

variable {α : Type} [SearchArithmetic α] {m : Mdp α} {γ : Type}

/-- **Every episode** that the clock does not cut short `Performs` a legal play. The induction is on
the decisions that are left; a process that is `Positive` has a successor to draw at each of
them. -/
theorem episodeFrom_performs [WordSource γ] (hm : m.Positive) {r : ℕ → ℕ} {began horizon : ℕ}
    (hclock : ∀ i, r i - began < horizon) {config : SearchConfig α}
    (htime : ∀ seconds, config.timeBudget = some seconds → nanosecondsOf? seconds ≠ none)
    {k left : ℕ} {s : State} {steps : List TraceStep} {source : γ} {time : ℕ}
    (hleft : s.isFailed = true ∨ s.remaining < left) :
    m.Performs s steps
      ((m.episodeFrom (readings r) began horizon config k left s steps source).run time).1 := by
  induction left generalizing s steps source time with
  | zero =>
      have hfailed : s.isFailed = true := hleft.resolve_right (Nat.not_lt_zero _)
      have hfinished : m.finished? s = some .deadlineExceeded := by
        simp [finished?, isGoal, hfailed]
      rw [episodeFrom]
      simp only [hfinished]
      exact .stop (Or.inl hfinished) steps
  | succ left ih =>
      rw [episodeFrom]
      cases hfinished : m.finished? s with
      | some status =>
          simp only
          exact .stop (Or.inl hfinished) steps
      | none =>
          have hlive : s.isFailed = false := (finished?_eq_none_iff.mp hfinished).2
          have hremaining : s.remaining < left + 1 := hleft.resolve_left (by simp [hlive])
          simp only
          rw [run_bind, run_readings, if_neg (Nat.not_le.mpr (hclock _))]
          cases happlicable : m.applicable s with
          | nil => exact .stop (Or.inr ⟨hfinished, happlicable, rfl⟩) steps
          | cons first others =>
              obtain ⟨a, ha, source', time', hdecision⟩ :=
                m.exists_decision (readings r) htime k s first others source (time + 1)
              simp only
              rw [run_bind, hdecision]
              have happ : m.isApplicable s a = true := mem_applicable.mp (happlicable ▸ ha)
              have ht := sample_mem_successors hm happ (uniform (α := α) source').1
              refine .step hfinished happ ht (ih ?_)
              cases hnext : (m.draw (α := α) s a source').1.isFailed with
              | true => exact Or.inl hnext
              | false =>
                  have hlt := remaining_lt happ ht hnext
                  exact Or.inr (Nat.lt_of_lt_of_le hlt (Nat.le_of_lt_succ hremaining))

/-- `plan` gives a trace, which records a legal play from the initial state that settles. -/
theorem exists_plan (hm : m.Positive) {params : PlanParams α} (hparams : params.validate = .ok ())
    (hconfig : (params.searchConfig m.discount).validate = .ok ()) {horizon : ℕ}
    (hhorizon : nanosecondsOf? params.horizonSecs = some horizon)
    (hsearch : nanosecondsOf? params.searchTimeSecs ≠ none) {r : ℕ → ℕ}
    (hclock : ∀ i, r i - r 0 < horizon) (γ : Type) [SeededSource γ] :
    ∃ n state action status seconds,
      ((m.plan γ (readings r) params).run 0).1 =
        .ok ⟨(List.range n).map fun k => m.traceStep (action k) (state (k + 1)), status,
          m.elapsed (state n), m.goalsSatisfied (state n), seconds⟩ ∧
      m.Plays m.initialState n state action ∧ m.Settles (state n) status := by
  have htime : ∀ seconds, (params.searchConfig m.discount).timeBudget = some seconds →
      nanosecondsOf? seconds ≠ none := by
    intro seconds hseconds
    obtain rfl := Option.some.inj hseconds
    exact hsearch
  have hperforms : m.Performs m.initialState [] ((m.episodeFrom (readings r) (r 0) horizon
      (params.searchConfig m.discount) params.k (m.deadline + 1) m.initialState []
      (SeededSource.ofSeed params.seed : γ)).run 1).1 :=
    episodeFrom_performs hm hclock htime (Or.inr (Nat.lt_succ_self m.deadline))
  obtain ⟨n, state, action, status, hresult, hplays, hsettles⟩ := hperforms
  rw [List.nil_append] at hresult
  rw [plan]
  simp only [hparams, hconfig, hhorizon]
  rw [run_bind, run_readings, run_bind]
  rcases hepisode : (m.episodeFrom (readings r) (r 0) horizon (params.searchConfig m.discount)
    params.k (m.deadline + 1) m.initialState [] (SeededSource.ofSeed params.seed : γ)).run 1 with
    ⟨result, time⟩
  rw [hepisode] at hresult
  obtain rfl : result = _ := hresult
  exact ⟨n, state, action, status, _, rfl, hplays, hsettles⟩

/-- What a **trace** says of the run that it `Records`: one step for each decision, nothing after an
end, and a status that tells why the run ended. -/
structure Records (m : Mdp α) (trace : Trace) (n : ℕ) (state : ℕ → State) (action : ℕ → ℕ) :
    Prop where
  run : m.IsRun n state action
  length_steps : trace.steps.length = n
  step : ∀ k < n, ∃ name, m.actionName? (action k) = some name ∧ trace.steps[k]? =
    some ⟨name, m.elapsed (state (k + 1)), m.goalsSatisfied (state (k + 1))⟩
  goesOn : ∀ k < n, m.isGoal (state k) = false ∧ (state k).isFailed = false
  finalElapsed : trace.finalElapsed = m.elapsed (state n)
  goalsSatisfied : trace.goalsSatisfied = m.goalsSatisfied (state n)
  goalReached_iff : trace.status = .goalReached ↔
    (state n).isFailed = false ∧ ∀ g ∈ m.core.goals, (state n).satisfies g = true
  deadlineExceeded_iff : trace.status = .deadlineExceeded ↔ (state n).isFailed = true
  noApplicableAction_iff : trace.status = .noApplicableAction ↔ (state n).isFailed = false ∧
    (¬∀ g ∈ m.core.goals, (state n).satisfies g = true) ∧ m.applicable (state n) = []
  horizon : trace.status ≠ .horizonElapsed
  split : m.mode = .split → trace.status ≠ .noApplicableAction
  length_le : n ≤ m.deadline + 1
  elapsed_lt : ∀ k < n, m.elapsed (state k) < m.elapsed (state (k + 1)) ∨
    (k + 1 = n ∧ (state n).isFailed = true ∧ m.elapsed (state n) = m.deadline)

/-- A plan gives a trace that `Records` a run. -/
theorem exists_records (hm : m.Built) (hpositive : m.Positive) {params : PlanParams α}
    (hparams : params.validate = .ok ())
    (hconfig : (params.searchConfig m.discount).validate = .ok ()) {horizon : ℕ}
    (hhorizon : nanosecondsOf? params.horizonSecs = some horizon)
    (hsearch : nanosecondsOf? params.searchTimeSecs ≠ none) {r : ℕ → ℕ}
    (hclock : ∀ i, r i - r 0 < horizon) (γ : Type) [SeededSource γ] :
    ∃ trace n state action, ((m.plan γ (readings r) params).run 0).1 = .ok trace ∧
      m.Records trace n state action := by
  obtain ⟨n, state, action, status, seconds, htrace, hplays, hsettles⟩ :=
    exists_plan hpositive hparams hconfig hhorizon hsearch hclock γ
  obtain ⟨hgoal, hfailed, hnone, hnever⟩ := hsettles.status_iff
  refine ⟨_, n, state, action, htrace, {
    run := hplays.isRun
    length_steps := by simp
    step := fun k hk => ?_
    goesOn := fun k hk => finished?_eq_none_iff.mp (hplays.continues k hk)
    finalElapsed := rfl
    goalsSatisfied := rfl
    goalReached_iff := hgoal
    deadlineExceeded_iff := hfailed
    noApplicableAction_iff := hnone
    horizon := hnever
    split := fun hmode hstatus => ?_
    length_le := hplays.length_le
    elapsed_lt := fun k hk => hplays.elapsed_lt hk }⟩
  · obtain ⟨name, hname⟩ := exists_actionName (hplays.applicable k hk)
    refine ⟨name, hname, ?_⟩
    rw [List.getElem?_map, List.getElem?_range hk, Option.map_some, traceStep, hname]
    rfl
  · obtain ⟨hlive, -, hempty⟩ := hnone.mp hstatus
    exact applicable_ne_nil_of_split hm hmode hlive hempty

end Episodes

/-- The successors of a run are listed by `transitions`, with some probability. -/
theorem IsRun.exists_prob {α : Type} [Arithmetic α] {m : Mdp α} {n k : ℕ} {state : ℕ → State}
    {action : ℕ → ℕ} (run : m.IsRun n state action) (hk : k < n) :
    ∃ p, (p, state (k + 1)) ∈ m.transitions (state k) (action k) := by
  obtain ⟨⟨p, t⟩, hmem, rfl⟩ := List.mem_map.mp (run.follows k hk)
  exact ⟨p, hmem⟩

/-- **The trace of a plan over doubles is a legal run that ends.** For a process that was built,
settings in range whose time limits have a form in nanoseconds, any numbers that the source may
yield, and any clock that never reaches the horizon, `plan` gives a trace, and the trace `Records` a
run from the initial state. Each decision leads to a listed successor, which has positive
probability unless a product of chances underflows in the decision. -/
theorem plan_is_legal_run {m : Mdp Float} (hm : m.Built) {params : PlanParams Float}
    (hparams : params.validate = .ok ())
    (hconfig : (params.searchConfig m.discount).validate = .ok ()) {horizon : ℕ}
    (hhorizon : nanosecondsOf? params.horizonSecs = some horizon)
    (hsearch : nanosecondsOf? params.searchTimeSecs ≠ none) {r : ℕ → ℕ}
    (hclock : ∀ i, r i - r 0 < horizon) (γ : Type) [SeededSource γ] :
    ∃ trace n state action, ((m.plan γ (readings r) params).run 0).1 = .ok trace ∧
      m.Records trace n state action ∧
      ∀ k < n, ∃ p, (p, state (k + 1)) ∈ m.transitions (state k) (action k) ∧
        (m.NoUnderflow (state k) (action k) → 0 < p) := by
  obtain ⟨trace, n, state, action, htrace, hrecords⟩ :=
    exists_records hm hm.positive_doubles hparams hconfig hhorizon hsearch hclock γ
  refine ⟨trace, n, state, action, htrace, hrecords, fun k hk => ?_⟩
  obtain ⟨p, hp⟩ := hrecords.run.exists_prob hk
  exact ⟨p, hp, fun h => transitions_pos_double h (p, state (k + 1)) hp⟩

/-- **The trace of a plan over exact numbers** records a run that moves to successors of positive
probability only. -/
theorem exists_exact_run {K : Type} [Field K] [LinearOrder K] [IsStrictOrderedRing K]
    [FloorSemiring K] [Elementary K] {m : Mdp K} (hm : m.Built) {params : PlanParams K}
    (hparams : params.validate = .ok ())
    (hconfig : (params.searchConfig m.discount).validate = .ok ()) {horizon : ℕ}
    (hhorizon : nanosecondsOf? params.horizonSecs = some horizon)
    (hsearch : nanosecondsOf? params.searchTimeSecs ≠ none) {r : ℕ → ℕ}
    (hclock : ∀ i, r i - r 0 < horizon) (γ : Type) [SeededSource γ] :
    ∃ trace n state action, ((m.plan γ (readings r) params).run 0).1 = .ok trace ∧
      m.Records trace n state action ∧
      ∀ k < n, ∃ p, (p, state (k + 1)) ∈ m.transitions (state k) (action k) ∧ 0 < p := by
  obtain ⟨trace, n, state, action, htrace, hrecords⟩ :=
    exists_records hm hm.positive hparams hconfig hhorizon hsearch hclock γ
  refine ⟨trace, n, state, action, htrace, hrecords, fun k hk => ?_⟩
  obtain ⟨p, hp⟩ := hrecords.run.exists_prob hk
  exact ⟨p, hp, m.transitions_pos _ _ _ hp⟩

/-! ### A lamp and a flint -/

/-- Pressing the switch of a lamp that is off; the law says whether it goes on. -/
def pressing {α : Type} (law : Law α) : ConvertedAction α where
  course := .instant ⟨"press", [⟨⟨0⟩, false⟩], [], [⟨[⟨0⟩], law, []⟩]⟩
  resources := .empty
  combinable := true

/-- A lamp that has to be on within three ticks. -/
def lampWith {α : Type} (law : Law α) : ConvertedProblem α :=
  ⟨⟨"lamp", {}, .empty, .empty, [⟨⟨0⟩, true⟩], 3⟩, [pressing law]⟩

/-- The process of a lamp that goes on every other time. -/
def lampProcess : Mdp Float := splitProcess (lampWith (.coin 0.5 0.5)) 0.95

theorem lampProcess_built : lampProcess.Built := by
  have hcheck : ((Law.coin (0.5 : Float) 0.5).check "press" 0 Law.tolerance).isOk = true := by
    decide +kernel
  have hlaw : (Law.coin (0.5 : Float) 0.5).Passes := Law.passes_of_isOk hcheck
  refine .split (ofConverted_eq_ok_iff.mpr ⟨check_eq_ok (by decide +kernel) ?_, rfl⟩)
  simpa [lampWith, pressing, ConvertedAction.events, ConvertedAction.start,
    ConvertedAction.finish?] using hlaw

/-- `drawCount` is at most one with the lamp: pressing the switch has no end of its own. -/
theorem drawCount_lampProcess (s : State) (a : ℕ) : lampProcess.drawCount s a ≤ 1 := by
  have hends : ∀ ended, lampProcess.endFirings ended = [] := by
    intro ended
    have hnone : ∀ i ∈ ended, (lampProcess.singles[i]?).bind (·.finish?) = none := by
      rintro (_ | i) - <;> rfl
    rw [endFirings, List.filterMap_eq_nil_iff.mpr hnone]
    rfl
  have hfirings : ∀ kind,
      ((lampProcess.firings s kind).map fun f => f.event.groups.length).sum ≤ 1 := by
    intro kind
    rw [firings_eq, hends, List.append_nil]
    cases kind with
    | wait | combined j => exact Nat.zero_le 1
    | start i | instant i | single i =>
        rcases i with _ | i
        · exact Nat.le_refl 1
        · exact Nat.zero_le 1
  rw [drawCount]
  cases lampProcess.kind? a with
  | none => exact Nat.zero_le 1
  | some kind =>
      rw [Option.elim_some]
      split
      · exact hfirings kind
      · exact Nat.zero_le 1

/-- Nothing underflows with the lamp: each chance is a half, and `drawCount` is at most one. -/
theorem noUnderflow_lampProcess (s : State) (a : ℕ) : lampProcess.NoUnderflow s a := by
  have hhalf : (Binary.ofFloat 0.5).value? = some (1 / 2) := by
    have hparts : Binary.ofFloat 0.5 = .finite false (2 ^ 52) (-53) := by decide +kernel
    rw [hparts, Binary.value?]
    norm_num
  have hcount := drawCount_lampProcess s a
  refine noUnderflow_of_value? (k := 1) (by decide) (fun p hp => ⟨1 / 2, ?_, by norm_num⟩) (by omega)
  obtain ⟨a, ha, e, he, g, hg, -, outcomes, houtcomes, o, ho, rfl⟩ := hp
  obtain rfl : a = pressing (.coin 0.5 0.5) := by
    simpa [lampProcess, splitProcess, lampWith] using ha
  obtain rfl : e = (pressing (.coin 0.5 0.5)).start := by
    simpa [pressing, ConvertedAction.events, ConvertedAction.finish?] using he
  obtain rfl : g = ⟨[⟨0⟩], .coin 0.5 0.5, []⟩ := List.mem_singleton.mp hg
  obtain rfl : outcomes = _ := List.mem_singleton.mp houtcomes
  have hprob : o.prob = 0.5 := by
    rcases List.mem_pair.mp ho with rfl | rfl <;> rfl
  rw [hprob]
  exact hhalf

/-- The `standard` settings are in range, whatever the seed. -/
theorem validate_withSeed (seed : UInt64) :
    ({ PlanParams.standard with seed } : PlanParams Float).validate = .ok () := by
  have hpositive : Arithmetic.isPositive (90.0 : Float) = true := by decide +kernel
  simp only [PlanParams.validate, PlanParams.standard, hpositive]
  rfl

/-- The settings of the search that the usual settings lead to are in range, whatever the seed. -/
theorem validate_searchConfig_withSeed (seed : UInt64) :
    (({ PlanParams.standard with seed } : PlanParams Float).searchConfig 0.95).validate = .ok () := by
  have hpositive : Arithmetic.isPositive (1.0 : Float) = true := by decide +kernel
  have hweight : Arithmetic.isNonNegative (Arithmetic.ofNat 10 : Float) = true := by decide +kernel
  have hdiscount : Arithmetic.isNonNegative (0.95 : Float) = true := by decide +kernel
  simp [SearchConfig.validate, SearchConfig.fault?, PlanParams.searchConfig, PlanParams.standard,
    hpositive, hweight, hdiscount]

/-- A lamp that goes on every other time, under the usual settings. -/
theorem plan_is_legal_run_lamp :
    lampProcess.Built ∧ (PlanParams.standard : PlanParams Float).validate = .ok () ∧
    ∃ trace n state action,
      ((lampProcess.plan ChaCha.Stream (readings fun _ => 0) .standard).run 0).1 = .ok trace ∧
      lampProcess.Records trace n state action ∧ n ≤ 4 ∧ trace.status ≠ .noApplicableAction ∧
      ∀ k < n, ∃ p, (p, state (k + 1)) ∈ lampProcess.transitions (state k) (action k) ∧ 0 < p := by
  have hhorizon : nanosecondsOf? (PlanParams.standard : PlanParams Float).horizonSecs =
      some 90000000000 := by decide
  obtain ⟨trace, n, state, action, htrace, hrecords, hlisted⟩ :=
    plan_is_legal_run lampProcess_built (validate_withSeed 0) (validate_searchConfig_withSeed 0)
      hhorizon (by decide) (r := fun _ => 0) (fun _ => by decide) ChaCha.Stream
  refine ⟨lampProcess_built, validate_withSeed 0, trace, n, state, action, htrace, hrecords,
    hrecords.length_le, hrecords.split rfl, fun k hk => ?_⟩
  obtain ⟨p, hp, hpos⟩ := hlisted k hk
  exact ⟨p, hp, hpos (noUnderflow_lampProcess _ _)⟩

/-- A spark and a flame, each with a chance that can be multiplied with a half, but not with
itself. -/
def rare : Law Float := .fixed [⟨0.9999999991, []⟩, ⟨1e-200, [(0, true)]⟩]

/-- Striking a flint gives a spark, and a flame, independently. -/
def striking : ConvertedAction Float where
  course := .instant ⟨"strike", [], [], [⟨[⟨0⟩], rare, []⟩, ⟨[⟨1⟩], rare, []⟩]⟩
  resources := .empty
  combinable := true

/-- A flint that has to be struck once, for both a spark and a flame. -/
def flintProcess : Mdp Float :=
  combinationProcess
    ⟨⟨"flint", {}, .empty, .empty, [⟨⟨0⟩, true⟩, ⟨⟨1⟩, true⟩], 1⟩, [striking], []⟩ 0.95

/-- The process of the flint is built: the check of the law only looks at its sum, which a chance of
`1e-200` does not move by the tolerance. -/
theorem flintProcess_built : flintProcess.Built := by
  have hcheck : (rare.check "strike" 0 Law.tolerance).isOk = true := by decide +kernel
  have hlaw : rare.Passes := Law.passes_of_isOk hcheck
  refine .combination (ofCombination_eq_ok_iff.mpr ⟨check_eq_ok (by decide +kernel) ?_, rfl⟩)
  simpa [striking, ConvertedAction.events, ConvertedAction.start, ConvertedAction.finish?]
    using hlaw

/-- The settings with a seed whose first number is greater than the sum of the probabilities that
striking the flint lists, and so picks what is listed last. -/
def lateSeed : PlanParams Float := { PlanParams.standard with seed := 2650585502 }

/-- **A plan can lead to a state of probability zero.** Striking the flint lists four states, the
last of which has both a spark and a flame, and the product of their chances is rounded to zero.
The plan of this seed goes there, and there is no run with positive probabilities that its trace
records. -/
theorem plan_flint_impossible :
    flintProcess.Built ∧ lateSeed.validate = .ok () ∧
    (lateSeed.searchConfig flintProcess.discount).validate = .ok () ∧
    nanosecondsOf? lateSeed.horizonSecs = some 90000000000 ∧
    nanosecondsOf? lateSeed.searchTimeSecs ≠ none ∧
    ¬∃ trace n state action,
      ((flintProcess.plan ChaCha.Stream (readings fun _ => 0) lateSeed).run 0).1 = .ok trace ∧
      flintProcess.Records trace n state action ∧
      ∀ k < n, ∃ p, (p, state (k + 1)) ∈ flintProcess.transitions (state k) (action k) ∧
        0 < p := by
  refine ⟨flintProcess_built, validate_withSeed _, validate_searchConfig_withSeed _, by decide,
    by decide, ?_⟩
  rintro ⟨trace, n, state, action, htrace, hrecords, hpositive⟩
  have hplan : ((flintProcess.plan ChaCha.Stream (readings fun _ => 0) lateSeed).run
      0).1.toOption.map Trace.steps = some [⟨"strike", 1, 2⟩] := by decide +kernel
  have hsteps : trace.steps = [⟨"strike", 1, 2⟩] := by
    rw [htrace] at hplan
    exact Option.some.inj hplan
  obtain rfl : n = 1 := by rw [← hrecords.length_steps, hsteps]; rfl
  have hstart : state 0 = flintProcess.initialState := hrecords.run.begins
  have haction : action 0 = 0 := by
    have happ := mem_applicable.mpr (hrecords.run.applicable 0 Nat.one_pos)
    exact Nat.lt_one_iff.mp (List.mem_range.mp (List.mem_filter.mp happ).1)
  have hgoals : flintProcess.goalsSatisfied (state 1) = 2 := by
    obtain ⟨name, -, hstep⟩ := hrecords.step 0 Nat.one_pos
    rw [hsteps] at hstep
    exact (TraceStep.mk.inj (Option.some.inj hstep)).2.2.symm
  have hlisted : ∀ x ∈ flintProcess.transitions flintProcess.initialState 0,
      0 < x.1 → flintProcess.goalsSatisfied x.2 ≠ 2 := by decide +kernel
  obtain ⟨p, hp, hpos⟩ := hpositive 0 Nat.one_pos
  rw [hstart, haction] at hp
  exact hlisted _ hp hpos hgoals

end Mdp

end DurativePlanning
