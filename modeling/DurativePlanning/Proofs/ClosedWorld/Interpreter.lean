import DurativePlanning.Mdp.Basic
import DurativePlanning.Proofs.Problem.Typing
import Mathlib.Logic.Function.Basic

/-!
# A Domain Played Without Atoms

A process works on numbered atoms: grounding numbers some ground fluents and no others, and a state
is a set of numbers. This module says what a domain means without any of that. A **valuation** gives
every ground fluent a truth value, and schemas are executed on valuations directly, with the objects
of a tuple put in for the parameters wherever a fluent is asked for or changed. No table, ground
problem or process appears here; what is shared with the process are the laws, which read any
valuation, and the agenda, which does not mention fluents.

* `Domain.initialValues`: the last explicit initial value, and otherwise the declared default.
* `Instance`: a schema and a tuple, with `Instance.start` and `Instance.finish?` as its events.
* `Happening.results`: the weighted results of an event on a valuation.
* `Interpreter.transitions`: the weighted results of a decision.
* `Domain.interpreter`: the interpreter of a domain for each way of compiling it.
-/

namespace DurativePlanning

variable {α : Type}

/-- A truth value for every ground fluent, whether or not it has an atom. -/
abbrev Valuation := GroundFluent → Bool

namespace Valuation

/-- The valuation in which one ground fluent has a new value, by `Function.update`. -/
def set (v : Valuation) (x : GroundFluent × Bool) : Valuation := Function.update v x.1 x.2

/-- The valuation after `set` with several values in order. -/
def setAll (v : Valuation) (values : List (GroundFluent × Bool)) : Valuation := values.foldl set v

/-- Whether ground fluents have given values. -/
def satisfiesAll (v : Valuation) (values : List (GroundFluent × Bool)) : Bool :=
  values.all fun x => v x.1 == x.2

end Valuation

/-- **The initial values** of a domain: of several explicit values the last counts, which the
reversed list finds first, and a ground fluent without one has `defaultOf` its declaration. -/
def Domain.initialValues (d : Domain α) : Valuation := fun f =>
  (d.initial.reverse.lookup f).getD (d.declarations.defaultOf f)

/-! ### Events on ground fluents -/

/-- Ground fluents whose values are drawn together, and the tuple that is put in for the parameters
of the law. -/
structure FluentGroup (α : Type) where
  targets : List GroundFluent
  law : Law α
  tuple : List ObjectId

/-- Something that happens at one point in time: it asks for values, sets values in order, and then
draws its groups. -/
structure Happening (α : Type) where
  conditions : List (GroundFluent × Bool)
  effects : List (GroundFluent × Bool)
  groups : List (FluentGroup α)

/-- The values that an outcome gives to targets of a group. -/
def FluentGroup.values (g : FluentGroup α) (o : Outcome α) : List (GroundFluent × Bool) :=
  o.assign.filterMap fun (target, value) => g.targets[target]?.map (·, value)

section

variable [Arithmetic α]

/-- The draws of a group with their weights: the branch that `Law.select` takes, without the
outcomes of weight zero. -/
def FluentGroup.draws (g : FluentGroup α) (v : Valuation) :
    List (α × List (GroundFluent × Bool)) :=
  ((g.law.select v g.tuple).map fun o => (o.prob, g.values o)).filter fun x => decide (0 < x.1)

/-- The joint draws of independent groups, all of which read the same valuation. -/
def jointDraws (groups : List (FluentGroup α)) (v : Valuation) :
    List (α × List (GroundFluent × Bool)) :=
  groups.foldl (fun joint g => joint.flatMap fun (p, left) =>
    (g.draws v).map fun (q, right) => (p * q, left ++ right)) [(1, [])]

namespace Happening

/-- The weighted results of an event whose conditions do not matter. -/
def results (h : Happening α) (v : Valuation) : List (α × Valuation) :=
  let after := v.setAll h.effects
  (jointDraws h.groups after).map fun (p, values) => (p, after.setAll values)

/-- The weighted results of an event that does nothing where its conditions fail, which is how ends
are evaluated. -/
def guardedResults (h : Happening α) (v : Valuation) : List (α × Valuation) :=
  if v.satisfiesAll h.conditions then h.results v else [(1, v)]

end Happening

/-- One more step after weighted results, each of which it multiplies by the weights of `step`. -/
def chain (branches : List (α × Valuation)) (step : Valuation → List (α × Valuation)) :
    List (α × Valuation) :=
  branches.flatMap fun (p, v) => (step v).map fun (q, w) => (p * q, w)

end

/-! ### Instances -/

/-- A schema and the objects that are put in for its parameters. -/
structure Instance (α : Type) where
  schema : Schema α
  tuple : List ObjectId

namespace Instance

/-- The ground fluents that templates stand for under the tuple, by `Template.bind`. -/
def bind (x : Instance α) (templates : List Template) : List GroundFluent :=
  templates.filterMap (·.bind x.tuple)

/-- The ground fluents that templates stand for, with the values that go with them. -/
def bindValues (x : Instance α) (values : List (Template × Bool)) : List (GroundFluent × Bool) :=
  values.filterMap fun (τ, value) => (τ.bind x.tuple).map (·, value)

/-- The values that the conditions of the schema ask for at some `timings`. -/
def conditionsAt (x : Instance α) (timings : List Timing) : List (GroundFluent × Bool) :=
  x.bindValues ((x.schema.conditions.filter fun c => timings.contains c.timing).map fun c =>
    (c.fluent, c.value))

/-- The values that the effects of the schema set at one `timing`. -/
def effectsAt (x : Instance α) (timing : EffectTiming) : List (GroundFluent × Bool) :=
  x.bindValues ((x.schema.effects.filter fun e => e.timing == timing).map fun e =>
    (e.fluent, e.value))

/-- The groups that are drawn, each with the tuple of the instance. -/
def groups (x : Instance α) : List (FluentGroup α) :=
  x.schema.groups.map fun g => ⟨x.bind g.targets, g.law, x.tuple⟩

/-- The ground fluents that are kept for the instance while it runs. -/
def resources (x : Instance α) : List GroundFluent := x.bind x.schema.resources

/-- The event with which an instance begins; one without extent does everything in it. -/
def start (x : Instance α) : Happening α :=
  if x.schema.duration = 0 then
    ⟨x.conditionsAt [.atStart, .overall, .atEnd], x.effectsAt .atStart ++ x.effectsAt .atEnd,
      x.groups⟩
  else ⟨x.conditionsAt [.atStart, .overall], x.effectsAt .atStart, []⟩

/-- The event with which an instance ends, if it has extent. -/
def finish? (x : Instance α) : Option (Happening α) :=
  if x.schema.duration = 0 then none
  else some ⟨x.conditionsAt [.overall, .atEnd], x.effectsAt .atEnd, x.groups⟩

/-- The events in order. -/
def events (x : Instance α) : List (Happening α) := x.start :: x.finish?.toList

/-- Whether two instances need no common resource. -/
def compatible (x y : Instance α) : Bool := x.resources.all fun f => !y.resources.contains f

end Instance

/-! ### The interpreter -/

/-- The state of an interpreter. As for a process, nothing is left to do after a failure. -/
inductive Situation where
  | failed
  | running (values : Valuation) (remaining : ℕ) (agenda : Agenda)

namespace Situation

/-- What holds; nothing does after a failure. -/
def values : Situation → Valuation
  | failed => fun _ => false
  | running values _ _ => values

/-- The time left; none is left after a failure. -/
def remaining : Situation → ℕ
  | failed => 0
  | running _ remaining _ => remaining

/-- The actions in flight; there are none after a failure. -/
def agenda : Situation → Agenda
  | failed => .empty
  | running _ _ agenda => agenda

/-- Whether a situation is the failure. -/
def isFailed : Situation → Bool
  | failed => true
  | running _ _ _ => false

end Situation

/-- What an interpreter plays. In split mode a decision starts one instance or waits for a tick; in
combination mode a decision runs one instance, or one of the pairs, to completion. -/
structure Interpreter (α : Type) where
  /-- What the ground fluents are that have values. -/
  declarations : Universe
  mode : Mode
  instances : List (Instance α)
  /-- The instances, by position, that may run side by side. -/
  pairs : List (ℕ × ℕ)
  initial : Valuation
  goals : List (GroundFluent × Bool)
  deadline : ℕ

namespace Interpreter

/-! ### Decisions -/

/-- What each decision does. -/
def kind? (I : Interpreter α) (a : ℕ) : Option ActionKind :=
  match I.mode with
  | .split =>
    if a = I.instances.length then some .wait
    else (I.instances[a]?).map fun x => if x.schema.duration = 0 then .instant a else .start a
  | .combination =>
    if a < I.instances.length then some (.single a)
    else if a < I.instances.length + I.pairs.length then some (.combined (a - I.instances.length))
    else none

/-- In split mode `kind?` begins one instance for each position, and waits for the position after
the last one. -/
theorem kind?_of_split {I : Interpreter α} (hmode : I.mode = .split) (a : ℕ) :
    I.kind? a = if a = I.instances.length then some .wait
      else (I.instances[a]?).map fun x =>
        if x.schema.duration = 0 then .instant a else .start a := by
  rw [kind?, hmode]

/-- The instances that a decision begins, in order. -/
def begun (I : Interpreter α) : ActionKind → List ℕ
  | .start i | .instant i | .single i => [i]
  | .wait => []
  | .combined j => (I.pairs[j]?).elim [] fun (i, k) => [i, k]

/-- The ticks until the longest of some instances is over, each of which takes at least one. -/
def longest (I : Interpreter α) (positions : List ℕ) : ℕ :=
  ((positions.filterMap (I.instances[·]?)).map fun x => max x.schema.duration 1).max?.getD 1

/-- The ticks that a decision takes: one in split mode, and otherwise what its parts take. -/
def cost (I : Interpreter α) : ActionKind → ℕ
  | .start _ | .instant _ | .wait => 1
  | .single i => I.longest (I.begun (.single i))
  | .combined j => I.longest (I.begun (.combined j))

/-- A decision that starts an instance does so only where the instance has extent. -/
theorem exists_of_kind?_eq_start {I : Interpreter α} {a i : ℕ} (h : I.kind? a = some (.start i)) :
    ∃ x, I.instances[i]? = some x ∧ x.schema.duration ≠ 0 := by
  rw [kind?] at h
  split at h
  · split at h
    · exact absurd h (by simp)
    · obtain ⟨x, hx, hkind⟩ := Option.map_eq_some_iff.mp h
      split at hkind
      · exact absurd hkind (by simp)
      · next hduration => exact ⟨x, ActionKind.start.inj hkind ▸ hx, hduration⟩
  · split at h
    · exact absurd h (by simp)
    · split at h
      · exact absurd h (by simp)
      · exact absurd h (by simp)

/-- Whether the conditions of an instance's `start` hold. -/
def canBegin (I : Interpreter α) (v : Valuation) (i : ℕ) : Bool :=
  (I.instances[i]?).any fun x => v.satisfiesAll x.start.conditions

/-- Whether a decision can be taken in a situation that has not failed: an instance must not be in
flight already when it is started, and all that begins must satisfy its conditions in the same
situation. -/
def admits (I : Interpreter α) (w : Situation) : ActionKind → Bool
  | .start i => !(w.agenda.toList.any (·.action == i)) && I.canBegin w.values i
  | .instant i | .single i => I.canBegin w.values i
  | .wait => true
  | .combined j => (I.pairs[j]?).any fun (i, k) => I.canBegin w.values i && I.canBegin w.values k

/-- Whether a decision can be taken: it has a `kind?`, and the situation `admits` it and has not
failed. -/
def isApplicable (I : Interpreter α) (w : Situation) (a : ℕ) : Bool :=
  !w.isFailed && (I.kind? a).any (I.admits w)

/-! ### Time -/

/-- The entries that compete for a tick: one for an instance that starts, with its whole duration to
go, and those of the agenda. -/
def entries (I : Interpreter α) (agenda : Agenda) : ActionKind → List InFlight
  | .start i => ((I.instances[i]?).toList.map fun x => ⟨x.schema.duration, i⟩) ++ agenda.toList
  | _ => agenda.toList

/-- The instances whose ends are evaluated in a decision, in order: those run to completion, or
those of `entries` that are due with this tick. -/
def ended (I : Interpreter α) (agenda : Agenda) : ActionKind → List ℕ
  | .single i => I.begun (.single i)
  | .combined j => I.begun (.combined j)
  | kind =>
    (Agenda.ofList ((I.entries agenda kind).filter fun e => decide (e.ticksLeft ≤ 1))).toList.map
      (·.action)

/-- The agenda after a decision: a tick is taken from every entry that goes on. -/
def nextAgenda (I : Interpreter α) (agenda : Agenda) : ActionKind → Agenda
  | .single _ | .combined _ => .empty
  | kind =>
    .ofList (((I.entries agenda kind).filter fun e => decide (1 < e.ticksLeft)).map InFlight.tick)

/-! ### Successors -/

section

variable [Arithmetic α]

/-- The events of a decision as steps on valuations: the chosen instances begin, and then instances
end, each only where its conditions hold. -/
def steps (I : Interpreter α) (agenda : Agenda) (kind : ActionKind) :
    List (Valuation → List (α × Valuation)) :=
  ((I.begun kind).filterMap (I.instances[·]?)).map (fun x => x.start.results) ++
    ((I.ended agenda kind).filterMap fun i => (I.instances[i]?).bind (·.finish?)).map
      (·.guardedResults)

/-- The weighted results of a decision, one for each way in which its draws can come out. A decision
that cannot be taken changes nothing, and one that overruns the time left fails. -/
def transitions (I : Interpreter α) (w : Situation) (a : ℕ) : List (α × Situation) :=
  match I.kind? a with
  | none => [(1, w)]
  | some kind =>
    if I.isApplicable w a then
      if w.remaining < I.cost kind then [(1, .failed)]
      else ((I.steps w.agenda kind).foldl chain [(1, w.values)]).map fun x =>
        (x.1, .running x.2 (w.remaining - I.cost kind) (I.nextAgenda w.agenda kind))
    else [(1, w)]

/-- The situations to which a decision can lead. -/
def successors (I : Interpreter α) (w : Situation) (a : ℕ) : List Situation :=
  (I.transitions w a).map Prod.snd

end

/-! ### Goals and runs -/

/-- The situation in which the play begins. -/
def initialSituation (I : Interpreter α) : Situation := .running I.initial I.deadline .empty

/-- The number of goals that hold; none hold after a failure. -/
def goalsSatisfied (I : Interpreter α) (w : Situation) : ℕ :=
  if w.isFailed then 0 else I.goals.countP fun x => w.values x.1 == x.2

/-- Whether all goals hold. -/
def isGoal (I : Interpreter α) (w : Situation) : Bool :=
  !w.isFailed && w.values.satisfiesAll I.goals

/-- A **run** of `n` decisions: it begins in the initial situation, each decision can be taken in
the situation before it, and the next situation is one of its results. -/
structure IsRun [Arithmetic α] (I : Interpreter α) (n : ℕ) (situation : ℕ → Situation)
    (action : ℕ → ℕ) : Prop where
  begins : situation 0 = I.initialSituation
  applicable : ∀ k < n, I.isApplicable (situation k) (action k) = true
  follows : ∀ k < n, situation (k + 1) ∈ I.successors (situation k) (action k)

end Interpreter

/-! ### The interpreter of a domain -/

/-- The three ways of compiling a domain: one event per decision, or runs to completion, of single
actions and either of all pairs without a common resource or of those that may be combined. -/
inductive Compilation where
  | split
  | pairs
  | combinablePairs
  deriving DecidableEq, Repr

namespace Compilation

/-- The mode of the process that is compiled. -/
def mode : Compilation → Mode
  | split => .split
  | pairs | combinablePairs => .combination

end Compilation

/-- All pairs of compatible members of a list, the earlier one first. -/
def compatiblePairs : List (Instance α × ℕ) → List (ℕ × ℕ)
  | [] => []
  | x :: rest =>
    (rest.filter fun y => x.1.compatible y.1).map (fun y => (x.2, y.2)) ++ compatiblePairs rest

namespace Domain

/-- The instances of a schema: it is applied to the tuples that it is restricted to, and otherwise
to all tuples of the right types. -/
def instancesOf (d : Domain α) (s : Schema α × ℕ) : List (Instance α) :=
  ((d.tuples? ⟨s.2⟩).getD (d.declarations.tuplesOf (s.1.params.map Prod.snd))).map (⟨s.1, ·⟩)

/-- The instances of all schemas in order. -/
def instances (d : Domain α) : List (Instance α) := d.schemas.zipIdx.flatMap d.instancesOf

/-- The pairs of instances that a way of compiling allows. -/
def pairs (d : Domain α) : Compilation → List (ℕ × ℕ)
  | .split => []
  | .pairs => compatiblePairs d.instances.zipIdx
  | .combinablePairs => (compatiblePairs d.instances.zipIdx).filter fun (i, k) =>
      [i, k].all fun j => (d.instances[j]?).any (·.schema.combinable)

end Domain

end DurativePlanning
