import DurativePlanning.Proofs.Exact
import DurativePlanning.Proofs.Planner.Episode
import DurativePlanning.Proofs.Planner.InTime
import Mathlib.Algebra.BigOperators.Group.List.Basic
import Mathlib.Algebra.Ring.Nat
import Mathlib.Analysis.SpecialFunctions.Log.Basic
import Mathlib.Analysis.SpecialFunctions.Sqrt

/-!
# Batches of Episodes

The episodes of an evaluation share nothing but their settings, and each has a seed of its own. So a
batch can be cut anywhere: what is counted in the whole batch is what is counted in its first part
and in its second part, which begins with the seed that comes next, also where seeds go round after
the greatest. Means add up as well, each weighted by its number of episodes, as long as no quotient
is rounded.

* `Mdp.Yields`: what a plan in time gives, at any clock.
* `Mdp.episodes_eq_ok`, `Mdp.exists_episodes_add`: the episodes of a batch, one by one and cut in
  two.
* `Summary.Accounts`, `Summary.Adds`: the counts of a summary, and of two parts.
* `Summary.Totals`, `Summary.AddsExactly`: the means, without rounding.
* `Mdp.evaluate_add`: an evaluation and its two parts.
-/

namespace DurativePlanning

variable {α γ τ : Type}

/-! ### Seeds one after the other -/

/-- The settings with the seed that comes `i` seeds later. -/
def PlanParams.later (params : PlanParams α) (i : ℕ) : PlanParams α :=
  { params with seed := params.seed + UInt64.ofNat i }

theorem PlanParams.later_zero (params : PlanParams α) : params.later 0 = params := by
  simp [later]

theorem PlanParams.later_succ (params : PlanParams α) (i : ℕ) :
    PlanParams.later { params with seed := params.seed + 1 } i = params.later (i + 1) := by
  simp only [later, UInt64.ofNat_add, PlanParams.mk.injEq, true_and, and_true]
  grind

/-- Episodes later add up. -/
theorem PlanParams.later_later (params : PlanParams α) (i j : ℕ) :
    (params.later i).later j = params.later (i + j) := by
  simp only [later, UInt64.ofNat_add, UInt64.add_assoc]

/-! ### The episodes of a batch -/

namespace Mdp

variable [SearchArithmetic α] [SeededSource γ] {m : Mdp α} {params : PlanParams α}
  {clock : StateM τ ℕ} {time : τ} {runs i : ℕ} {t t' : Trace} {traces : List Trace}

variable (γ) in
/-- **What a plan in time gives**, at any clock and at any time, but for the seconds it takes. -/
def Yields (m : Mdp α) (params : PlanParams α) (t : Trace) : Prop :=
  ∀ (τ : Type) (clock : StateM τ ℕ) (time : τ), m.PlansInTime γ clock params time →
    ∃ seconds, ((m.plan γ clock params).run time).1 = .ok { t with wallSeconds := seconds }

/-- What one plan in time gives, every plan in time does, but for the seconds. -/
theorem yields_of_plan (h : m.PlansInTime γ clock params time)
    (hplan : ((m.plan γ clock params).run time).1 = .ok t) : m.Yields γ params t := by
  intro τ' clock' time' h'
  have hsame := plan_eq_of_inTime h h'
  rw [hplan] at hsame
  cases hplan' : ((m.plan γ clock' params).run time').1 with
  | error cause =>
      rw [hplan'] at hsame
      cases hsame
  | ok t' =>
      rw [hplan'] at hsame
      obtain ⟨hsteps, hstatus, helapsed, hgoals, -⟩ :=
        Trace.mk.injEq .. ▸ (Except.ok.inj hsame : t.timeless = t'.timeless)
      exact ⟨t'.wallSeconds, by rw [hsteps, hstatus, helapsed, hgoals]⟩

/-- A plan in time gives the trace that the settings `Yields`, but for the seconds. -/
theorem Yields.timeless_eq (h : m.Yields γ params t) (htime : m.PlansInTime γ clock params time)
    (hplan : ((m.plan γ clock params).run time).1 = .ok t') : t'.timeless = t.timeless := by
  obtain ⟨seconds, hsame⟩ := h τ clock time htime
  rw [hplan] at hsame
  rw [Except.ok.inj hsame]
  rfl

/-- **The episodes of a batch**, one by one: each is a plan with the settings `params.later i`,
which is begun at some time. -/
theorem episodes_eq_ok (h : m.EvaluatesInTime γ clock runs params time)
    (hepisodes : ((m.episodes γ clock params runs).run time).1 = .ok traces) :
    traces.length = runs ∧ ∀ i t, traces[i]? = some t →
      ∃ began, m.PlansInTime γ clock (params.later i) began ∧
        ((m.plan γ clock (params.later i)).run began).1 = .ok t := by
  induction runs generalizing params time traces with
  | zero =>
      obtain rfl : [] = traces := Except.ok.inj hepisodes
      simp
  | succ runs ih =>
      obtain ⟨hfirst, hrest⟩ := h
      rw [episodes, run_bind] at hepisodes
      cases hplan : ((m.plan γ clock params).run time).1 with
      | error cause =>
          rw [hplan] at hepisodes
          cases hepisodes
      | ok first =>
          simp only [hplan] at hepisodes
          rw [run_bind] at hepisodes
          cases hothers : ((m.episodes γ clock { params with seed := params.seed + 1 } runs).run
            ((m.plan γ clock params).run time).2).1 with
          | error cause =>
              rw [hothers] at hepisodes
              cases hepisodes
          | ok others =>
              rw [hothers] at hepisodes
              obtain rfl : first :: others = traces := Except.ok.inj hepisodes
              obtain ⟨hlength, hplans⟩ := ih hrest hothers
              refine ⟨by rw [List.length_cons, hlength], ?_⟩
              rintro (_ | i) t ht
              · obtain rfl : first = t := Option.some.inj ht
                rw [PlanParams.later_zero]
                exact ⟨time, hfirst, hplan⟩
              · rw [← PlanParams.later_succ]
                exact hplans i t ht

/-- **A batch succeeds** when each of its seeds `Yields` a trace, by induction on the number of
episodes. -/
theorem exists_episodes (h : m.EvaluatesInTime γ clock runs params time)
    (hyields : ∀ i < runs, ∃ t, m.Yields γ (params.later i) t) :
    ∃ traces, ((m.episodes γ clock params runs).run time).1 = .ok traces := by
  induction runs generalizing params time with
  | zero => exact ⟨[], rfl⟩
  | succ runs ih =>
      obtain ⟨hfirst, hrest⟩ := h
      obtain ⟨t, ht⟩ := hyields 0 (Nat.succ_pos runs)
      rw [PlanParams.later_zero] at ht
      obtain ⟨seconds, hplan⟩ := ht τ clock time hfirst
      obtain ⟨others, hothers⟩ := ih hrest fun i hi => by
        rw [PlanParams.later_succ]
        exact hyields (i + 1) (Nat.succ_lt_succ hi)
      refine ⟨{ t with wallSeconds := seconds } :: others, ?_⟩
      rw [episodes, run_bind]
      simp only [hplan]
      rw [run_bind, hothers]
      rfl

/-- **A batch cut in two**: what one evaluation does in time, two can do in time, one after the
other, and their traces are those of the whole up to `timeless`. -/
theorem exists_episodes_add {τ₁ τ₂ : Type} {clock₁ : StateM τ₁ ℕ} {clock₂ : StateM τ₂ ℕ}
    {time₁ : τ₁} {time₂ : τ₂} {more : ℕ}
    (h : m.EvaluatesInTime γ clock (runs + more) params time)
    (h₁ : m.EvaluatesInTime γ clock₁ runs params time₁)
    (h₂ : m.EvaluatesInTime γ clock₂ more (params.later runs) time₂)
    (hepisodes : ((m.episodes γ clock params (runs + more)).run time).1 = .ok traces) :
    ∃ first second, ((m.episodes γ clock₁ params runs).run time₁).1 = .ok first ∧
      ((m.episodes γ clock₂ (params.later runs) more).run time₂).1 = .ok second ∧
      traces.map Trace.timeless = (first ++ second).map Trace.timeless := by
  obtain ⟨hlength, hplans⟩ := episodes_eq_ok h hepisodes
  have hyields : ∀ i (hi : i < traces.length), m.Yields γ (params.later i) traces[i] :=
    fun i hi => by
      obtain ⟨began, htime, hplan⟩ := hplans i _ (List.getElem?_eq_getElem hi)
      exact yields_of_plan htime hplan
  obtain ⟨first, hfirst⟩ := exists_episodes h₁ fun i hi => ⟨_, hyields i (by omega)⟩
  obtain ⟨second, hsecond⟩ := exists_episodes h₂ fun i hi => by
    rw [PlanParams.later_later]
    exact ⟨_, hyields (runs + i) (by omega)⟩
  obtain ⟨hlength₁, hplans₁⟩ := episodes_eq_ok h₁ hfirst
  obtain ⟨hlength₂, hplans₂⟩ := episodes_eq_ok h₂ hsecond
  have hboth : (first ++ second).length = traces.length := by rw [List.length_append]; omega
  refine ⟨first, second, hfirst, hsecond, List.ext_getElem (by simpa using hboth.symm) ?_⟩
  intro i hi hi'
  rw [List.length_map] at hi
  simp only [List.getElem_map]
  by_cases hcut : i < runs
  · rw [List.getElem_append_left (by omega)]
    obtain ⟨began, htime, hplan⟩ := hplans₁ i first[i] (List.getElem?_eq_getElem (by omega))
    exact ((hyields i hi).timeless_eq htime hplan).symm
  · rw [List.getElem_append_right (by omega)]
    obtain ⟨began, htime, hplan⟩ := hplans₂ (i - first.length) second[i - first.length]
      (List.getElem?_eq_getElem (by omega))
    have hseed : (params.later runs).later (i - first.length) = params.later i := by
      rw [PlanParams.later_later, hlength₁, Nat.add_sub_cancel' (by omega)]
    rw [hseed] at htime hplan
    exact ((hyields i hi).timeless_eq htime hplan).symm

/-- `evaluate` succeeds when all `episodes` do, and then sums their traces up. -/
theorem evaluate_eq_ok {s : Summary α} :
    ((m.evaluate γ clock runs params).run time).1 = .ok s ↔
      ∃ traces, ((m.episodes γ clock params runs).run time).1 = .ok traces ∧ s = .ofTraces traces := by
  rw [evaluate, run_bind]
  cases ((m.episodes γ clock params runs).run time).1 with
  | error cause => simp
  | ok traces =>
      simp only [StateT.run_pure, Except.ok.injEq, exists_eq_left']
      exact ⟨fun h => (Except.ok.inj h).symm, fun h => congrArg Except.ok h.symm⟩

end Mdp

/-! ### Counts and means -/

/-- **Every episode counts once**, by the way it has ended. -/
def Summary.Accounts (s : Summary α) : Prop :=
  s.successes + s.deadlineExceeded + s.noApplicableAction + s.horizonElapsed = s.runs

/-- **What is counted in two parts** is counted in the whole. -/
structure Summary.Adds (s first second : Summary α) : Prop where
  runs : s.runs = first.runs + second.runs
  successes : s.successes = first.successes + second.successes
  deadlineExceeded : s.deadlineExceeded = first.deadlineExceeded + second.deadlineExceeded
  noApplicableAction : s.noApplicableAction = first.noApplicableAction + second.noApplicableAction
  horizonElapsed : s.horizonElapsed = first.horizonElapsed + second.horizonElapsed

section Counts

variable [Arithmetic α] {traces traces' : List Trace}

/-- The summary of any traces counts every episode once, since each has one of the four statuses. -/
theorem Summary.accounts_ofTraces (traces : List Trace) :
    (Summary.ofTraces traces : Summary α).Accounts := by
  change countStatus traces .goalReached + countStatus traces .deadlineExceeded +
    countStatus traces .noApplicableAction + countStatus traces .horizonElapsed = traces.length
  induction traces with
  | nil => rfl
  | cons t rest ih =>
      simp only [countStatus, List.countP_cons, List.length_cons] at ih ⊢
      cases t.status <;> simp <;> omega

/-- `countStatus` does not look at how long the episodes took. -/
theorem countStatus_timeless (traces : List Trace) (status : PlanStatus) :
    countStatus (traces.map Trace.timeless) status = countStatus traces status := by
  rw [countStatus, List.countP_map]
  rfl

/-- The summary of traces counts what the summaries of two parts do, when the traces are those of
the parts but for the seconds. -/
theorem Summary.adds_ofTraces {first second : List Trace}
    (h : traces.map Trace.timeless = (first ++ second).map Trace.timeless) :
    (Summary.ofTraces traces : Summary α).Adds (.ofTraces first) (.ofTraces second) := by
  have hcount : ∀ status, countStatus traces status =
      countStatus first status + countStatus second status := fun status => by
    rw [← countStatus_timeless, h, countStatus_timeless, countStatus, List.countP_append]
    rfl
  have hlength : traces.length = first.length + second.length := by
    simpa using congrArg List.length h
  exact ⟨hlength, hcount _, hcount _, hcount _, hcount _⟩

end Counts

section Means

variable {K : Type} [Field K] [LinearOrder K] [IsStrictOrderedRing K] [FloorSemiring K]

/-- **The means of a summary** are those of the episodes `traces`: times their number, they are the
ticks, the decisions and the successes of all. -/
structure Summary.Totals (s : Summary K) (traces : List Trace) : Prop where
  elapsed : s.runs * s.meanElapsed = ((traces.map (·.finalElapsed)).sum : ℕ)
  steps : s.runs * s.meanSteps = ((traces.map (·.steps.length)).sum : ℕ)
  successes : s.runs * s.successRate = (traces.countP (·.status = .goalReached) : ℕ)

/-- **The means of two parts**, each times its number of episodes, add up. -/
structure Summary.AddsExactly (s first second : Summary K) : Prop where
  elapsed : s.runs * s.meanElapsed =
    first.runs * first.meanElapsed + second.runs * second.meanElapsed
  steps : s.runs * s.meanSteps = first.runs * first.meanSteps + second.runs * second.meanSteps
  successes : s.runs * s.successRate =
    first.runs * first.successRate + second.runs * second.successRate

/-- `meanOf` whole numbers, times how many there are, is their sum, also where there are none. -/
theorem length_mul_meanOf (xs : List ℕ) :
    (xs.length : K) * meanOf (xs.map Arithmetic.ofNat) = (xs.sum : ℕ) := by
  cases xs with
  | nil => simp
  | cons x rest =>
      have hlength : ((x :: rest).length : K) ≠ 0 := Nat.cast_ne_zero.mpr (Nat.succ_ne_zero _)
      calc ((x :: rest).length : K) * meanOf ((x :: rest).map Arithmetic.ofNat)
          = (x :: rest).length * (((x :: rest).map Nat.cast).sum / (x :: rest).length) := by
            rw [List.sum_eq_foldl, meanOf, List.length_map]
            rfl
        _ = ((x :: rest).map Nat.cast).sum := mul_div_cancel₀ _ hlength
        _ = ((x :: rest).sum : ℕ) := (Nat.cast_list_sum _).symm

/-- The means of the summary, each times the number of episodes, are the totals of the traces. -/
theorem Summary.totals_ofTraces (traces : List Trace) :
    (Summary.ofTraces traces : Summary K).Totals traces := by
  refine ⟨?_, ?_, ?_⟩
  · have hmean := length_mul_meanOf (K := K) (traces.map (·.finalElapsed))
    rwa [List.length_map, List.map_map] at hmean
  · have hmean := length_mul_meanOf (K := K) (traces.map (·.steps.length))
    rwa [List.length_map, List.map_map] at hmean
  · cases traces with
    | nil => simp [ofTraces]
    | cons t rest =>
        have hlength : ((t :: rest).length : K) ≠ 0 := Nat.cast_ne_zero.mpr (Nat.succ_ne_zero _)
        exact mul_div_cancel₀ _ hlength

/-- The means of two parts add up to those of the whole, when its traces are those of the parts but
for the seconds. -/
theorem Summary.addsExactly_ofTraces {traces first second : List Trace}
    (h : traces.map Trace.timeless = (first ++ second).map Trace.timeless) :
    (Summary.ofTraces traces : Summary K).AddsExactly (.ofTraces first) (.ofTraces second) := by
  have hsum : ∀ f : Trace → ℕ, (∀ t, f t.timeless = f t) →
      (traces.map f).sum = (first.map f).sum + (second.map f).sum := fun f hf => by
    have hmap : ∀ l : List Trace, l.map f = (l.map Trace.timeless).map f := fun l => by
      rw [List.map_map]
      exact List.map_congr_left fun t _ => (hf t).symm
    rw [hmap traces, h, ← hmap, List.map_append, List.sum_append]
  have hcount := (adds_ofTraces (α := K) h).successes
  refine ⟨?_, ?_, ?_⟩
  · rw [(totals_ofTraces traces).elapsed, (totals_ofTraces first).elapsed,
      (totals_ofTraces second).elapsed, hsum _ fun _ => rfl, Nat.cast_add]
  · rw [(totals_ofTraces traces).steps, (totals_ofTraces first).steps,
      (totals_ofTraces second).steps, hsum _ fun _ => rfl, Nat.cast_add]
  · rw [(totals_ofTraces traces).successes, (totals_ofTraces first).successes,
      (totals_ofTraces second).successes, ← Nat.cast_add]
    exact congrArg Nat.cast hcount

end Means

/-! ### An evaluation and its two parts -/

namespace Mdp

variable [SearchArithmetic α] [SeededSource γ]

/-- **An evaluation can be cut in two.** In every summary the four ways to end account for all
episodes. When an evaluation succeeds, and neither it nor its two parts find a time limit to be
reached, at whatever clocks and times, then both parts succeed. The episodes of the whole are those
of its parts, but for the seconds that they took, and each is what a plan with its seed gives. So the
counts add up, and without rounding the means add up as well, each times its number of episodes,
which is the sum over these episodes. -/
theorem evaluate_add {τ₁ τ₂ : Type} (m : Mdp α) (params : PlanParams α) (runs more : ℕ)
    (clock : StateM τ ℕ) (clock₁ : StateM τ₁ ℕ) (clock₂ : StateM τ₂ ℕ) :
    (∀ (time : τ) s, ((m.evaluate γ clock runs params).run time).1 = .ok s → s.Accounts) ∧
    ∀ (time : τ) (time₁ : τ₁) (time₂ : τ₂) (s : Summary α),
      m.EvaluatesInTime γ clock (runs + more) params time →
      m.EvaluatesInTime γ clock₁ runs params time₁ →
      m.EvaluatesInTime γ clock₂ more (params.later runs) time₂ →
      ((m.evaluate γ clock (runs + more) params).run time).1 = .ok s →
      ∃ traces first second : List Trace,
        s = .ofTraces traces ∧
        ((m.evaluate γ clock₁ runs params).run time₁).1 = .ok (.ofTraces first) ∧
        ((m.evaluate γ clock₂ more (params.later runs)).run time₂).1 = .ok (.ofTraces second) ∧
        s.Adds (.ofTraces first) (.ofTraces second) ∧
        traces.map Trace.timeless = (first ++ second).map Trace.timeless ∧
        traces.length = runs + more ∧ first.length = runs ∧ second.length = more ∧
        (∀ i t, traces[i]? = some t → m.Yields γ (params.later i) t ∧
          ∃ began, m.PlansInTime γ clock (params.later i) began ∧
            ((m.plan γ clock (params.later i)).run began).1 = .ok t) ∧
        ∀ (K : Type) [Field K] [LinearOrder K] [IsStrictOrderedRing K] [FloorSemiring K],
          (Summary.ofTraces traces : Summary K).Totals traces ∧
          (Summary.ofTraces first : Summary K).Totals first ∧
          (Summary.ofTraces second : Summary K).Totals second ∧
          (Summary.ofTraces traces : Summary K).AddsExactly (.ofTraces first) (.ofTraces second) := by
  constructor
  · intro time s hs
    obtain ⟨traces, -, rfl⟩ := evaluate_eq_ok.mp hs
    exact Summary.accounts_ofTraces traces
  · intro time time₁ time₂ s h h₁ h₂ hs
    obtain ⟨traces, htraces, rfl⟩ := evaluate_eq_ok.mp hs
    obtain ⟨first, second, hfirst, hsecond, hsame⟩ := exists_episodes_add h h₁ h₂ htraces
    obtain ⟨hlength, hplans⟩ := episodes_eq_ok h htraces
    refine ⟨traces, first, second, rfl, evaluate_eq_ok.mpr ⟨first, hfirst, rfl⟩,
      evaluate_eq_ok.mpr ⟨second, hsecond, rfl⟩, Summary.adds_ofTraces hsame, hsame, hlength,
      (episodes_eq_ok h₁ hfirst).1, (episodes_eq_ok h₂ hsecond).1, ?_, ?_⟩
    · intro i t ht
      obtain ⟨began, htime, hplan⟩ := hplans i t ht
      exact ⟨yields_of_plan htime hplan, began, htime, hplan⟩
    · intro K _ _ _ _
      exact ⟨Summary.totals_ofTraces traces, Summary.totals_ofTraces first,
        Summary.totals_ofTraces second, Summary.addsExactly_ofTraces hsame⟩

/-- The logarithm and the root of real numbers. -/
noncomputable instance : Elementary ℝ := ⟨Real.log, Real.sqrt⟩

/-- With real numbers nothing is wrong with the `standard` settings. -/
theorem not_explains_standard (seed : UInt64) (cause : PlanError) :
    ¬PlanParams.Explains { (PlanParams.standard : PlanParams ℝ) with seed } 1 cause := by
  have hpositive : Arithmetic.isPositive (90.0 : Float) = true := by decide +kernel
  have hpositive' : Arithmetic.isPositive (1.0 : Float) = true := by decide +kernel
  have hhorizon : nanosecondsOf? (90.0 : Float) = some 90000000000 := by decide
  have hsearch : nanosecondsOf? (1.0 : Float) = some 1000000000 := by decide
  have hweight : (0 : ℝ) ≤ Arithmetic.ofNat 10 := Nat.cast_nonneg 10
  cases cause with
  | invalidParams fault =>
      simp [PlanParams.Explains, PlanParams.validate, PlanParams.standard, hpositive]
  | config fault =>
      simp [PlanParams.Explains, SearchConfig.validate, SearchConfig.fault?,
        PlanParams.searchConfig, PlanParams.standard, Arithmetic.isNonNegative, hpositive', hweight]
  | search cause => exact id
  | unusableTime seconds =>
      simp only [PlanParams.Explains, PlanParams.standard, List.mem_cons, List.not_mem_nil, or_false]
      rintro ⟨rfl | rfl, hnone⟩
      · rw [hhorizon] at hnone
        cases hnone
      · rw [hsearch] at hnone
        cases hnone

/-- A lamp that goes on two times out of three. -/
noncomputable def lamp : ConvertedProblem ℝ := lampWith (.coin (2 / 3) (1 / 3))

/-- Three episodes with a lamp. The first one has the greatest seed, the other two go on with the
least ones. -/
theorem evaluate_add_lamp :
    let evaluated (runs : ℕ) (seed : UInt64) : Except PlanError (Summary ℝ) :=
      (((splitProcess lamp 1).evaluate ChaCha.Stream (readings fun _ => 0) runs
        { PlanParams.standard with seed }).run 0).1
    ∃ s first second, evaluated 3 18446744073709551615 = .ok s ∧
      evaluated 1 18446744073709551615 = .ok first ∧ evaluated 2 0 = .ok second ∧
      s.runs = 3 ∧ s.Accounts ∧ s.successes = first.successes + second.successes ∧
      s.runs * s.meanElapsed = first.runs * first.meanElapsed + second.runs * second.meanElapsed :=
    by
  intro evaluated
  have hhorizon : nanosecondsOf? (PlanParams.standard : PlanParams ℝ).horizonSecs =
      some 90000000000 := by decide
  have hsearch : nanosecondsOf? (PlanParams.standard : PlanParams ℝ).searchTimeSecs =
      some 1000000000 := by decide
  have hstays : ∀ (seconds : Float) (limit : ℕ), nanosecondsOf? seconds = some limit → 0 < limit →
      StaysWithin (readings fun _ => 0) seconds := by
    intro seconds limit hlimit hpos limit' hlimit' _ _
    obtain rfl : limit = limit' := Option.some.inj (hlimit.symm.trans hlimit')
    exact hpos
  have htime : ∀ (runs : ℕ) (seed : UInt64), (splitProcess lamp 1).EvaluatesInTime ChaCha.Stream
      (readings fun _ => 0) runs { PlanParams.standard with seed } 0 := by
    intro runs seed
    apply evaluatesInTime_of_close
    · exact hstays _ _ hhorizon (by decide)
    · exact hstays _ _ hsearch (by decide)
  obtain ⟨s, hs⟩ : ∃ s, evaluated 3 18446744073709551615 = .ok s := by
    cases hresult : evaluated 3 18446744073709551615 with
    | error cause => exact absurd (evaluate_error hresult) (not_explains_standard _ cause)
    | ok s => exact ⟨s, rfl⟩
  have hbatch := evaluate_add (γ := ChaCha.Stream) (splitProcess lamp 1)
    { PlanParams.standard with seed := 18446744073709551615 } 1 2
    (readings fun _ => 0) (readings fun _ => 0) (readings fun _ => 0)
  have hall := evaluate_add (γ := ChaCha.Stream) (splitProcess lamp 1)
    { PlanParams.standard with seed := 18446744073709551615 } 3 0
    (readings fun _ => 0) (readings fun _ => 0) (readings fun _ => 0)
  obtain ⟨traces, first, second, rfl, hfirst, hsecond, hadds, -, hlength, -, -, -, hexact⟩ :=
    hbatch.2 0 0 0 s (htime 3 _) (htime 1 _) (htime 2 _) hs
  exact ⟨_, _, _, hs, hfirst, hsecond, hlength, hall.1 0 _ hs, hadds.successes,
    (hexact ℝ).2.2.2.elapsed⟩

end Mdp

end DurativePlanning
