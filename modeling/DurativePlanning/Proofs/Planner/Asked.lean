import DurativePlanning.Proofs.Mdp.Built
import DurativePlanning.Proofs.Numbering
import DurativePlanning.Proofs.Planner.Outcome
import DurativePlanning.Proofs.Search.Recorded
import DurativePlanning.Proofs.Seconds
import DurativePlanning.Random.ChaCha

/-!
# What a Decision Asks

The search behind a decision knows states by number and decisions by position, and the process
answers from the table of the states met so far. The table only grows, and a state is not changed by
time: what it offers, and whether all ends there, is always the same. So each number and each
position that the search comes back with still stands for the state and the decision it stood for,
and what the process would answer for an unknown one is never needed.

* `Mdp.Resolves`: a question about a state in the table and a decision that can be taken there.
* `Mdp.environment_serves`: the process never forgets what it has offered.
* `Mdp.recordedSearch`: the search behind a decision, with a record of what it asks.
* `Mdp.decision_asks_resolved`: the search asks nothing else, and a decision comes of it.
-/

namespace DurativePlanning

variable {α γ τ : Type}

namespace Mdp

/-! ### The table as a view -/

/-- **A question that the table resolves**: `get?` finds the state; for a `step` or a `choose` all
does not end there, a step takes a decision that can be taken, and a choice is between all those. -/
def Resolves (m : Mdp α) (table : StateTable) : Question → Prop
  | .actionCount key => ∃ s, table.get? key = some s
  | .step key position => ∃ s action, table.get? key = some s ∧ m.isTerminal s = false ∧
      (m.applicable s)[position]? = some action
  | .choose key available => ∃ s, table.get? key = some s ∧ m.isTerminal s = false ∧
      (m.applicable s).length = available

/-- What the table tells of states: that they are in it, and how many decisions can be taken. -/
def tableView (m : Mdp α) : View (StateTable × γ) where
  known hidden key := ∃ s, hidden.1.get? key = some s
  offers hidden key n := ∃ s, hidden.1.get? key = some s ∧ m.isTerminal s = false ∧
    (m.applicable s).length = n

section Table

variable {m : Mdp α} {hidden hidden' : StateTable × γ} {key : ℕ} {s : State}

/-- A question that fits what `tableView` tells is resolved by the table. -/
theorem resolves_of_fits {q : Question} (h : m.tableView.Fits hidden q) :
    m.Resolves hidden.1 q := by
  cases q with
  | actionCount key => exact h
  | step key position =>
      obtain ⟨n, ⟨s, hs, hlive, rfl⟩, hlt⟩ := h
      exact ⟨s, _, hs, hlive, List.getElem?_eq_getElem hlt⟩
  | choose key available => exact h

/-- `tableView` tells no less of a table that grows. -/
theorem grows_tableView (hgrown : hidden.1.toList <+: hidden'.1.toList) :
    m.tableView.Grows hidden hidden' := by
  constructor
  · rintro key ⟨s, hs⟩
    exact ⟨s, Numbering.get?_mono hgrown hs⟩
  · rintro key n ⟨s, hs, hlive, hlength⟩
    exact ⟨s, Numbering.get?_mono hgrown hs, hlive, hlength⟩

variable [Arithmetic α] [WordSource γ] {k : ℕ}

/-- `actionCount` of a state in the table counts the decisions that can be taken, and none where all
ends. -/
theorem environment_actionCount (hs : hidden.1.get? key = some s) :
    (m.environment k).actionCount key hidden =
      (if m.isTerminal s then 0 else (m.applicable s).length, hidden) := by
  simp only [environment, hs]

/-- `step` goes to a successor that is drawn, which has a number from then on. -/
theorem environment_step {position action : ℕ} (hs : hidden.1.get? key = some s)
    (haction : (m.applicable s)[position]? = some action) :
    (m.environment k).step key position hidden =
      let drawn := m.draw s action hidden.2
      (⟨(hidden.1.intern drawn.1).1, m.progress s drawn.1, m.isTerminal drawn.1⟩,
        (hidden.1.intern drawn.1).2, drawn.2) := by
  simp only [environment, hs, haction]

/-- `choose` leaves the table as it is and only draws from the source. -/
theorem environment_choose (hs : hidden.1.get? key = some s) (count : ℕ) :
    (m.environment k).choose key count hidden =
      ((m.rolloutChoice s count k hidden.2).1, hidden.1,
        (m.rolloutChoice s count k hidden.2).2) := by
  simp only [environment, hs]

/-- **The process never forgets** what it has offered, and leads only to states in its table:
`environment` serves `tableView`. -/
theorem environment_serves (m : Mdp α) (k : ℕ) :
    (m.environment k).Serves (m.tableView (γ := γ)) where
  actionCount := by
    rintro hidden key ⟨s, hs⟩
    rw [environment_actionCount hs]
    refine ⟨.refl hidden, fun hcount => ?_⟩
    cases hterminal : m.isTerminal s with
    | true => exact absurd (by simp [hterminal]) hcount
    | false => exact ⟨s, hs, hterminal, by simp⟩
  step := by
    rintro hidden key position n ⟨s, hs, hlive, rfl⟩ hlt
    rw [environment_step hs (List.getElem?_eq_getElem hlt)]
    exact ⟨grows_tableView (Numbering.prefix_intern _ _), _, Numbering.get?_intern _ _⟩
  choose := by
    rintro hidden key n ⟨s, hs, -, -⟩
    rw [environment_choose hs]
    exact grows_tableView List.prefix_rfl

end Table

/-! ### The search behind a decision -/

variable [SearchArithmetic α] [WordSource γ] {m : Mdp α} {clock : StateM τ ℕ}
  {config : SearchConfig α} {k first : ℕ} {s : State} {others : List ℕ} {source : γ} {time : τ}

/-- **The search behind a decision**, with a record of what it asks. -/
def recordedSearch (m : Mdp α) (clock : StateM τ ℕ) (config : SearchConfig α) (k : ℕ) (s : State)
    (source : γ) : StateM τ (Except SearchError (RunMetrics α × List (Iteration α)) × Tree α ×
      (StateTable × γ) × List (Question × StateTable × γ)) :=
  let (key, table) := (Numbering.empty : StateTable).intern s
  (Tree.ofRoot key false).run clock (m.environment k).recorded config ((table, source), [])

/-- The decision that comes of a search. -/
def decided (first : ℕ) (others : List ℕ) :
    Except SearchError (RunMetrics α × List (Iteration α)) × Tree α × (StateTable × γ) →
      Except PlanError ℕ × γ
  | (.error cause, _, hidden) => (.error (.ofSearch cause), hidden.2)
  | (.ok _, t, hidden) => ((chosen t first (first :: others)).mapError .search, hidden.2)

/-- **A decision comes of its search**: `Mdp.decision` with something to choose from is `decided` by
the result of `recordedSearch`. -/
theorem run_decision (hothers : others ≠ []) :
    (m.decision clock config k s first others source).run time =
      (decided first others (forget ((m.recordedSearch clock config k s source).run time).1),
        ((m.recordedSearch clock config k s source).run time).2) := by
  have hempty : others.isEmpty = false := by simp [hothers]
  rw [decision, recordedSearch]
  rcases hintern : (Numbering.empty : StateTable).intern s with ⟨key, table⟩
  simp only [hempty, Bool.false_eq_true, if_false]
  have hrecorded : ((Tree.ofRoot key false).run clock (m.environment k) config
      (table, source)).run time = _ :=
    Tree.run_recorded (Tree.ofRoot key false) ((table, source), []) time
  rw [run_bind, hrecorded]
  rcases forget (((Tree.ofRoot key false).run clock (m.environment k).recorded config
    ((table, source), [])).run time).1 with ⟨_ | _, t, hidden⟩
  · rfl
  · simp only [decided]
    cases chosen t first (first :: others) with
    | error cause => rfl
    | ok action => rfl

/-- **The search asks only what the table resolves** at the time when it asks, for every entry of
the record of `recordedSearch`. -/
theorem resolves_of_asked :
    ∀ asked ∈ ((m.recordedSearch clock config k s source).run time).1.2.2.2,
      m.Resolves asked.2.1 asked.1 := by
  rw [recordedSearch]
  rcases hintern : (Numbering.empty : StateTable).intern s with ⟨key, table⟩
  have hroot : (m.tableView (γ := γ)).known (table, source) key := by
    have hget := Numbering.get?_intern (Numbering.empty : StateTable) s
    rw [hintern] at hget
    exact ⟨s, hget⟩
  have hgoes : m.tableView.Goes ((table, source), [])
      ((((Tree.ofRoot key false).run clock (m.environment k).recorded config
        ((table, source), [])).run time).1.2.2) :=
    Tree.goes_run (m.environment_serves k) (Tree.wellFormed_ofRoot key false)
      (Tree.knownTo_ofRoot hroot false)
  intro asked hasked
  exact resolves_of_fits (hgoes.fits (fun q hq => absurd hq List.not_mem_nil) asked hasked)

/-- A search whose time budget has no form in nanoseconds leads to no decision, but to
`unusableTime`. -/
theorem decision_of_unusable (hiterations : config.iterations ≠ 0) {seconds : Float}
    (hbudget : config.timeBudget = some seconds) (hnone : nanosecondsOf? seconds = none)
    (hothers : others ≠ []) :
    ((m.decision clock config k s first others source).run time).1.1 =
      .error (.unusableTime seconds) := by
  rw [run_decision hothers, recordedSearch]
  rcases hintern : (Numbering.empty : StateTable).intern s with ⟨key, table⟩
  simp only
  rw [Tree.run_of_unusable clock _ hiterations hbudget hnone]
  rfl

/-- **A decision asks only what the process resolves, and is made.** For settings in range, and
whatever numbers are drawn and whatever the clock tells, every question of the search behind a
decision is about a state in the table, and about decisions that can be taken there. What comes of
it is one of the decisions that can be taken, unless the time budget is `2 ^ 64` seconds or more,
which passes the check of the settings and yet has no form in nanoseconds. No plan and no evaluation
reports a fault of a search. -/
theorem decision_asks_resolved (m : Mdp α) (clock : StateM τ ℕ) :
    (∀ {γ : Type} [WordSource γ] {config : SearchConfig α} (k : ℕ) {s : State} {first : ℕ}
      {others : List ℕ} (source : γ) (time : τ),
      config.validate = .ok () → m.applicable s = first :: others → others ≠ [] →
        let search := (m.recordedSearch clock config k s source).run time
        let outcome := (m.decision clock config k s first others source).run time
        outcome = (decided first others (forget search.1), search.2) ∧
        (∀ asked ∈ search.1.2.2.2, m.Resolves asked.2.1 asked.1) ∧
        ((∀ seconds, config.timeBudget = some seconds → ¬TooLong seconds) →
          ∃ action ∈ m.applicable s, outcome.1.1 = .ok action) ∧
        ∀ seconds, config.timeBudget = some seconds → TooLong seconds →
          outcome.1.1 = .error (.unusableTime seconds)) ∧
    (∀ {γ : Type} [SeededSource γ] (params : PlanParams α) (time : τ) (cause : TreeError),
      ((m.plan γ clock params).run time).1 ≠ .error (.search cause)) ∧
    ∀ {γ : Type} [SeededSource γ] (runs : ℕ) (params : PlanParams α) (time : τ)
      (cause : TreeError),
      ((m.evaluate γ clock runs params).run time).1 ≠ .error (.search cause) := by
  refine ⟨?_, fun params time cause h => plan_error h, fun runs params time cause h =>
    evaluate_error h⟩
  intro γ _ config k s first others source time hvalid happlicable hothers
  obtain ⟨hiterations, hpositive, -⟩ := SearchConfig.validate_eq_ok_iff.mp hvalid
  refine ⟨run_decision hothers, resolves_of_asked, fun htime => ?_,
    fun seconds hbudget hlarge => ?_⟩
  · have husable : ∀ seconds, config.timeBudget = some seconds → nanosecondsOf? seconds ≠ none :=
      fun seconds hbudget hnone =>
        htime seconds hbudget ((nanosecondsOf?_eq_none_iff (hpositive seconds hbudget)).mp hnone)
    obtain ⟨action, haction, source', time', hdecision⟩ :=
      m.exists_decision clock husable k s first others source time
    exact ⟨action, happlicable ▸ haction, congrArg (·.1.1) hdecision⟩
  · exact decision_of_unusable hiterations hbudget
      ((nanosecondsOf?_eq_none_iff (hpositive seconds hbudget)).mpr hlarge) hothers

/-- A button that switches the light on. -/
def button (name : String) : ConvertedAction Float where
  course := .instant ⟨name, [], [⟨⟨0⟩, true⟩], []⟩
  resources := .empty
  combinable := false

/-- A light with two buttons, which has to be on within three ticks. -/
def panel : ConvertedProblem Float :=
  ⟨⟨"panel", {}, .empty, .empty, [⟨⟨0⟩, true⟩], 3⟩, [button "left", button "right"]⟩

/-- Settings of a search with a time budget. -/
def within (seconds : Float) : SearchConfig Float :=
  { (.standard : SearchConfig Float) with timeBudget := some seconds }

/-- With a second for the search a button is pressed, or one waits; with `10 ^ 20` seconds, nothing
is decided. -/
theorem decision_asks_resolved_panel :
    let m := splitProcess panel 1
    let outcome (seconds : Float) := ((m.decision (pure 0 : StateM Unit ℕ) (within seconds) 10
      m.initialState 0 [1, 2] (ChaCha.ofSeed 7)).run ()).1.1
    ofConverted panel 1 = .ok m ∧ m.applicable m.initialState = [0, 1, 2] ∧
      (within 1).validate = .ok () ∧ (∃ action ∈ [0, 1, 2], outcome 1 = .ok action) ∧
      (within 1e20).validate = .ok () ∧ outcome 1e20 = .error (.unusableTime 1e20) := by
  intro m outcome
  have happlicable : m.applicable m.initialState = [0, 1, 2] := rfl
  have hvalid : (within 1).validate = .ok () := rfl
  have hvalid' : (within 1e20).validate = .ok () := rfl
  have hsmall : ¬TooLong 1 := by decide
  have hlarge : TooLong 1e20 := by decide
  obtain ⟨-, -, hmade, -⟩ := (decision_asks_resolved m (pure 0 : StateM Unit ℕ)).1 10
    (ChaCha.ofSeed 7) () hvalid happlicable (by decide)
  obtain ⟨-, -, -, hfails⟩ := (decision_asks_resolved m (pure 0 : StateM Unit ℕ)).1 10
    (ChaCha.ofSeed 7) () hvalid' happlicable (by decide)
  refine ⟨rfl, happlicable, hvalid, ?_, hvalid', hfails 1e20 rfl hlarge⟩
  rw [← happlicable]
  refine hmade fun seconds hseconds => ?_
  obtain rfl : (1 : Float) = seconds := Option.some.inj hseconds
  exact hsmall

end Mdp

end DurativePlanning
