import DurativePlanning.Proofs.Mdp.Doubles
import DurativePlanning.Proofs.Planner.Outcome
import DurativePlanning.Proofs.Seconds
import DurativePlanning.Random.ChaCha
import DurativePlanning.Run.Config

/-!
# What Checked Settings Promise

The settings of a run are checked once, and what the planner and the search check of them later is
less. So settings in range are never refused again. Only their two time limits may yet fail: each is
known to be finite and positive, and has no form in nanoseconds from `2 ^ 64` seconds on. Below that
bound a plan gives a trace and an evaluation a summary.

* `RunConfig.validate_eq_ok_iff`: the settings of a run that are in range.
* `RunConfig.validate_planParams`, `RunConfig.validate_searchConfig`: they are not refused later.
* `Mdp.plan_of_checked`: plans and evaluations under such settings.
-/

namespace DurativePlanning

variable {α γ τ : Type}

namespace RunConfig

section

variable [Arithmetic α] {c : RunConfig α}

/-- **The settings of a run that are in range** are those that `RunConfig.validate` accepts. -/
theorem validate_eq_ok_iff :
    c.validate = .ok () ↔ Arithmetic.isUnit c.discount = true ∧ c.runs ≠ 0 ∧ c.objectAmount ≠ 0 ∧
      Arithmetic.isPositive c.horizonSecs = true ∧ Arithmetic.isPositive c.searchTimeSecs = true ∧
      c.searchDepth ≠ 0 ∧ Arithmetic.isNonNegative c.explorationConstant = true ∧ c.k ≠ 0 ∧
      c.maxIterations ≠ 0 := by
  have hfault : c.validate = .ok () ↔ Arithmetic.isUnit c.discount = true ∧ c.fault? = none := by
    rw [validate]
    cases Arithmetic.isUnit c.discount with
    | false => simp
    | true =>
        cases c.fault? with
        | none => simp
        | some fault => simp
  rw [hfault]
  simp only [fault?, ite_some_eq_none_iff, Bool.not_eq_true', Bool.not_eq_false, and_true, ne_eq]

/-- `planParams` of settings in range are in range. -/
theorem validate_planParams (hc : c.validate = .ok ()) : c.planParams.validate = .ok () := by
  obtain ⟨-, -, -, hhorizon, -, -, -, hk, -⟩ := validate_eq_ok_iff.mp hc
  exact PlanParams.validate_eq_ok_iff.mpr ⟨hhorizon, hk⟩

/-- `searchConfig` of settings in range is in range, under the discount of the run. -/
theorem validate_searchConfig (hc : c.validate = .ok ()) :
    (c.planParams.searchConfig c.discount).validate = .ok () := by
  obtain ⟨hdiscount, -, -, -, hsearch, hdepth, hweight, -, hiterations⟩ :=
    validate_eq_ok_iff.mp hc
  refine SearchConfig.validate_eq_ok_iff.mpr
    ⟨hiterations, ?_, hweight, (Bool.and_eq_true_iff.mp hdiscount).1, hdepth, hdepth⟩
  intro seconds hseconds
  obtain rfl : c.searchTimeSecs = seconds := Option.some.inj hseconds
  exact hsearch

end

/-- **The time limits of checked settings**: `nanosecondsOf?` gives nothing exactly when they are
`TooLong`. -/
theorem nanosecondsOf?_eq_none_iff_of_mem [Arithmetic α] {c : RunConfig α}
    (hc : c.validate = .ok ()) :
    ∀ seconds ∈ [c.horizonSecs, c.searchTimeSecs],
      nanosecondsOf? seconds = none ↔ TooLong seconds := by
  obtain ⟨-, -, -, hhorizon, hsearch, -⟩ := validate_eq_ok_iff.mp hc
  intro seconds hseconds
  rcases List.mem_pair.mp hseconds with rfl | rfl
  · exact nanosecondsOf?_eq_none_iff hhorizon
  · exact nanosecondsOf?_eq_none_iff hsearch

/-- **What may be wrong with checked settings** is that a time limit is `TooLong`. -/
theorem tooLong_of_explains [Arithmetic α] {c : RunConfig α} (hc : c.validate = .ok ())
    {cause : PlanError} (h : c.planParams.Explains c.discount cause) :
    ∃ seconds ∈ [c.horizonSecs, c.searchTimeSecs],
      TooLong seconds ∧ cause = .unusableTime seconds := by
  cases cause with
  | invalidParams fault => exact absurd ((validate_planParams hc).symm.trans h) (by simp)
  | config fault => exact absurd ((validate_searchConfig hc).symm.trans h) (by simp)
  | search cause => exact h.elim
  | unusableTime seconds =>
      exact ⟨seconds, h.1, (nanosecondsOf?_eq_none_iff_of_mem hc seconds h.1).mp h.2, rfl⟩

end RunConfig

namespace Mdp

/-- **What checked settings promise** of plans and evaluations, for a process that was built with
their discount, whatever numbers are drawn and whatever the clock tells. Neither the planner nor the
search refuses the settings. When no time limit is too long, a plan gives a trace and an evaluation
a summary. A horizon that is too long is the fault of every plan, and a fault is never anything but
a time limit that is too long. And an episode ends of itself: its bound, which is one decision more
than there are ticks, could as well be greater. -/
theorem plan_of_checked {c : RunConfig Float} (hc : c.validate = .ok ()) {m : Mdp Float}
    (hm : m.Built) (hdiscount : m.discount = c.discount) (γ : Type) [SeededSource γ]
    (clock : StateM τ ℕ) (runs : ℕ) (time : τ) :
    let config := c.planParams.searchConfig m.discount
    let plan := ((m.plan γ clock c.planParams).run time).1
    let evaluation := ((m.evaluate γ clock runs c.planParams).run time).1
    c.planParams.validate = .ok () ∧ config.validate = .ok () ∧
      (∀ seconds ∈ [c.horizonSecs, c.searchTimeSecs],
        nanosecondsOf? seconds = none ↔ TooLong seconds) ∧
      (¬TooLong c.horizonSecs → ¬TooLong c.searchTimeSecs →
        (∃ trace, plan = .ok trace) ∧ ∃ summary, evaluation = .ok summary) ∧
      (TooLong c.horizonSecs → plan = .error (.unusableTime c.horizonSecs) ∧
        (runs ≠ 0 → evaluation = .error (.unusableTime c.horizonSecs))) ∧
      (∀ cause, plan = .error cause ∨ evaluation = .error cause →
        ∃ seconds ∈ [c.horizonSecs, c.searchTimeSecs],
          TooLong seconds ∧ cause = .unusableTime seconds) ∧
      ∀ (began horizon left : ℕ) (source : γ), m.deadline < left →
        (m.episodeFrom clock began horizon config c.k left m.initialState [] source).run time =
          (m.episodeFrom clock began horizon config c.k (m.deadline + 1) m.initialState []
            source).run time := by
  intro config plan evaluation
  have hparams : c.planParams.validate = .ok () := c.validate_planParams hc
  have hconfig : config.validate = .ok () := by
    rw [← c.validate_searchConfig hc, ← hdiscount]
  have hnone := RunConfig.nanosecondsOf?_eq_none_iff_of_mem hc
  have hexplained : ∀ cause, plan = .error cause ∨ evaluation = .error cause →
      ∃ seconds ∈ [c.horizonSecs, c.searchTimeSecs],
        TooLong seconds ∧ cause = .unusableTime seconds := by
    intro cause h
    have hcause : c.planParams.Explains m.discount cause := h.elim plan_error evaluate_error
    exact RunConfig.tooLong_of_explains hc (hdiscount ▸ hcause)
  refine ⟨hparams, hconfig, hnone, fun hshort hshort' => ?_, fun hlong => ?_, hexplained, ?_⟩
  · have hfine : ∀ cause, ¬(plan = .error cause ∨ evaluation = .error cause) := by
      intro cause h
      obtain ⟨seconds, hseconds, hlong, -⟩ := hexplained cause h
      rcases List.mem_pair.mp hseconds with rfl | rfl
      · exact hshort hlong
      · exact hshort' hlong
    constructor
    · cases hplan : plan with
      | error cause => exact absurd (Or.inl hplan) (hfine cause)
      | ok trace => exact ⟨trace, rfl⟩
    · cases hevaluation : evaluation with
      | error cause => exact absurd (Or.inr hevaluation) (hfine cause)
      | ok summary => exact ⟨summary, rfl⟩
  · have hplan : plan = .error (.unusableTime c.horizonSecs) :=
      plan_of_unusable hparams hconfig ((hnone _ List.mem_cons_self).mpr hlong)
    exact ⟨hplan, fun hruns => evaluate_of_plan_error hruns hplan⟩
  · intro began horizon left source hleft
    obtain ⟨extra, rfl⟩ := Nat.exists_eq_add_of_le hleft
    exact run_episodeFrom_add hm.positive_doubles (Or.inr (Nat.lt_succ_self m.deadline)) extra

/-- A lantern that is lit and has to be lit. -/
def lantern : ConvertedProblem Float :=
  ⟨⟨"lantern", {}, .empty, AtomSet.empty.insert ⟨0⟩, [⟨⟨0⟩, true⟩], 3⟩, []⟩

/-- Under the usual settings the goal is reached; with a horizon of `10 ^ 20` seconds, which is in
range as well, there is no plan. -/
theorem plan_of_checked_lantern :
    let usual : RunConfig Float := .standard
    let patient : RunConfig Float := { usual with horizonSecs := 1e20 }
    let m := splitProcess lantern usual.discount
    let plan (c : RunConfig Float) :=
      ((m.plan ChaCha.Stream (pure 0 : StateM Unit ℕ) c.planParams).run ()).1
    usual.validate = .ok () ∧ patient.validate = .ok () ∧ m.Built ∧
      (∃ trace, plan usual = .ok trace) ∧ plan patient = .error (.unusableTime 1e20) := by
  intro usual patient m plan
  have husual : usual.validate = .ok () := RunConfig.validate_eq_ok_iff.mpr (by decide +kernel)
  have hpatient : patient.validate = .ok () :=
    RunConfig.validate_eq_ok_iff.mpr (by decide +kernel)
  have hcheck : check lantern.actions usual.discount = .ok () := by
    rw [check, if_pos (by decide +kernel)]
    rfl
  have hm : m.Built := .split (ofConverted_eq_ok_iff.mpr ⟨hcheck, rfl⟩)
  obtain ⟨-, -, -, hplan, -⟩ := plan_of_checked husual hm rfl ChaCha.Stream
    (pure 0 : StateM Unit ℕ) 1 ()
  obtain ⟨-, -, -, -, hfails, -⟩ := plan_of_checked hpatient hm rfl ChaCha.Stream
    (pure 0 : StateM Unit ℕ) 1 ()
  exact ⟨husual, hpatient, hm, (hplan (by decide) (by decide)).1, (hfails (by decide)).1⟩

end Mdp

end DurativePlanning
