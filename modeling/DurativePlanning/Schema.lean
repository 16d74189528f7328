import DurativePlanning.Law

/-!
# Action Schemas

A schema describes a durative action with parameters: what must hold and when, what changes at the
start and at the end, which groups of fluents are drawn by chance at the end, and which resources
the action keeps for itself while it runs. A duration of zero marks an action without extent.

* `Schema.param`, `Schema.require`, `Schema.effect`, `Schema.draw`: authoring, one item at a time.
* `Schema.uses`: a resource held for the whole duration.
* `Schema.templates`: everything that a schema mentions.
-/

namespace DurativePlanning

/-- When a condition is asked for. A condition over the whole action is asked for at both ends,
since nothing lies between them. -/
inductive Timing where
  | atStart
  | overall
  | atEnd
  deriving DecidableEq, Repr

/-- When an effect takes place. -/
inductive EffectTiming where
  | atStart
  | atEnd
  deriving DecidableEq, Repr

/-- A truth value asked of a template at some time. -/
structure Condition where
  timing : Timing
  fluent : Template
  value : Bool
  deriving DecidableEq, Repr

/-- A truth value given to a template at some time. -/
structure Effect where
  timing : EffectTiming
  fluent : Template
  value : Bool
  deriving DecidableEq, Repr

/-- Fluents whose values are drawn together, by one `Law`. -/
structure EffectSchema (α : Type) where
  targets : List Template
  law : Law α
  deriving BEq, Repr

/-- A durative action with parameters. -/
structure Schema (α : Type) where
  name : String
  params : List (String × TypeId) := []
  duration : Nat
  conditions : List Condition := []
  effects : List Effect := []
  groups : List (EffectSchema α) := []
  resources : List Template := []
  /-- Whether the action may be part of a combination. -/
  combinable : Bool := true
  deriving BEq, Repr

namespace Schema

variable {α : Type}

/-- A schema with one more parameter. -/
def param (s : Schema α) (name : String) (type : TypeId) : Schema α :=
  { s with params := s.params ++ [(name, type)] }

/-- A schema with one more condition. -/
def require (s : Schema α) (timing : Timing) (fluent : Template) (value : Bool) : Schema α :=
  { s with conditions := s.conditions ++ [⟨timing, fluent, value⟩] }

/-- A schema with one more effect. -/
def effect (s : Schema α) (timing : EffectTiming) (fluent : Template) (value : Bool) : Schema α :=
  { s with effects := s.effects ++ [⟨timing, fluent, value⟩] }

/-- A schema with one more group of fluents drawn by chance. -/
def draw (s : Schema α) (targets : List Template) (law : Law α) : Schema α :=
  { s with groups := s.groups ++ [⟨targets, law⟩] }

/-- A schema that holds a resource for its whole duration: it is required at the start, taken at the
start and given back at the end, and it is listed among the `resources`. -/
def uses (s : Schema α) (resource : Template) : Schema α :=
  let guarded := ((s.require .atStart resource true).effect .atStart resource false).effect
    .atEnd resource true
  { guarded with resources := guarded.resources ++ [resource] }

/-- A schema that may not be part of a `Combination`. -/
def alone (s : Schema α) : Schema α := { s with combinable := false }

/-- Every template that a schema mentions: those of its conditions, effects and resources, then for
each group its targets and the conditions of its law. -/
def templates (s : Schema α) : List Template :=
  s.conditions.map (·.fluent) ++ s.effects.map (·.fluent) ++ s.resources ++
    s.groups.flatMap fun g => g.targets ++ g.law.templates

end Schema

end DurativePlanning
