import DurativePlanning.Problem.Ground

/-!
# Events

A durative action is split into two events without extent, one at its start and one at its end. The
start event asks for the conditions at the start and over the whole action and applies the start
effects; the end event asks for the conditions over the whole action and at the end, applies the end
effects, and draws every group. An action of duration zero is one event that does all of it.

* `Event`: conditions, effects, groups.
* `ConvertedAction`: one event, or a start and an end some ticks apart.
* `GroundProblem.convert`: the converted problem of a ground problem.
-/

namespace DurativePlanning

/-- Something that happens at one point in time: it asks for its `conditions`, applies its `effects`
in order, and then draws its `groups`. -/
structure Event (α : Type) where
  name : String
  conditions : List Literal
  effects : List Literal
  groups : List (EffectGroup α)
  deriving BEq

/-- A durative action as a start event and an end event. -/
structure SplitAction (α : Type) where
  name : String
  start : Event α
  finish : Event α
  duration : Nat
  deriving BEq

/-- The events of a converted action: one if it is `instant`, two if it is `split`. -/
inductive Course (α : Type) where
  | instant (event : Event α)
  | split (action : SplitAction α)
  deriving BEq

/-- An action as events, with the resources it keeps for itself. -/
structure ConvertedAction (α : Type) where
  course : Course α
  resources : AtomSet
  combinable : Bool
  deriving BEq

/-- A problem whose actions are events. -/
structure ConvertedProblem (α : Type) where
  core : ProblemCore
  actions : List (ConvertedAction α)
  deriving BEq

variable {α : Type}

namespace ConvertedAction

/-- The name of the action, without the mark of a start event or end event. -/
def name (a : ConvertedAction α) : String :=
  match a.course with
  | .instant event => event.name
  | .split action => action.name

/-- The ticks that the action takes up when it runs on its own: its `duration`, and at least one. -/
def span (a : ConvertedAction α) : Nat :=
  match a.course with
  | .instant _ => 1
  | .split action => max action.duration 1

/-- The event with which the action begins. -/
def start (a : ConvertedAction α) : Event α :=
  match a.course with
  | .instant event => event
  | .split action => action.start

/-- The event with which the action ends, if it has extent. -/
def finish? (a : ConvertedAction α) : Option (Event α) :=
  match a.course with
  | .instant _ => none
  | .split action => some action.finish

/-- The events in order: `start`, and `finish?` if there is one. -/
def events (a : ConvertedAction α) : List (Event α) := a.start :: a.finish?.toList

end ConvertedAction

namespace ConvertedProblem

/-- The same problem with another deadline. -/
def withDeadline (p : ConvertedProblem α) (deadline : Nat) : ConvertedProblem α :=
  { p with core := p.core.withDeadline deadline }

/-- The number of events of all actions. -/
def eventCount (p : ConvertedProblem α) : Nat := (p.actions.flatMap (·.events)).length

/-- The first action with a given name. -/
def actionIndex? (p : ConvertedProblem α) (name : String) : Option Nat :=
  p.actions.findIdx? (·.name == name)

end ConvertedProblem

namespace GroundAction

/-- The conditions asked for at some times, in order. -/
def conditionsAt (a : GroundAction α) (timings : List Timing) : List Literal :=
  (a.conditions.filter fun c => timings.contains c.1).map Prod.snd

/-- The effects at one time, in order. -/
def effectsAt (a : GroundAction α) (timing : EffectTiming) : List Literal :=
  (a.effects.filter fun e => e.1 == timing).map Prod.snd

/-- All of an action as one event, start effects before end effects (`effectsAt`). -/
def wholeEvent (a : GroundAction α) : Event α where
  name := a.name
  conditions := a.conditionsAt [.atStart, .overall, .atEnd]
  effects := a.effectsAt .atStart ++ a.effectsAt .atEnd
  groups := a.groups

/-- The event with which a durative action begins; it has no groups. -/
def startEvent (a : GroundAction α) : Event α where
  name := a.name ++ "@start"
  conditions := a.conditionsAt [.atStart, .overall]
  effects := a.effectsAt .atStart
  groups := []

/-- The event with which a durative action ends; it has all the groups. -/
def endEvent (a : GroundAction α) : Event α where
  name := a.name ++ "@end"
  conditions := a.conditionsAt [.overall, .atEnd]
  effects := a.effectsAt .atEnd
  groups := a.groups

/-- The events of a ground action: the `wholeEvent` if it has no duration, else `startEvent` and
`endEvent`. -/
def convert (a : GroundAction α) : ConvertedAction α where
  course :=
    if a.duration = 0 then .instant a.wholeEvent
    else .split ⟨a.name, a.startEvent, a.endEvent, a.duration⟩
  resources := a.resources
  combinable := a.combinable

end GroundAction

/-- The problem with every action as events. -/
def GroundProblem.convert (p : GroundProblem α) : ConvertedProblem α :=
  ⟨p.core, p.actions.map (·.convert)⟩

end DurativePlanning
