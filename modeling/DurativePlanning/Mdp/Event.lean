import DurativePlanning.Problem.Converted

/-!
# What an Event Does

An event turns a set of atoms into a weighted list of sets: it applies its effects in order and then
draws all its groups, independently of each other, each according to what holds after the effects.
A guarded event does nothing at all where its conditions fail.

* `Event.outcomes`: the weighted results of one event.
* `fireAll`: the weighted results of several events, one after the other.
* `collect`: equal results taken together.
-/

namespace DurativePlanning

variable {α : Type}

/-- Whether all literals are true in a set of atoms. -/
def AtomSet.satisfiesAll (s : AtomSet) (literals : List Literal) : Bool :=
  literals.all fun l => s.contains l.atom == l.value

/-- The set after giving values to atoms in order (`AtomSet.assign`), so that the last value
counts. -/
def AtomSet.assignAll (s : AtomSet) (literals : List Literal) : AtomSet :=
  literals.foldl AtomSet.assign s

/-- What a set of atoms says of ground fluents: one to which `lookup` gives no atom is false. -/
def AtomTable.holdsIn (t : AtomTable) (s : AtomSet) (f : GroundFluent) : Bool :=
  (t.lookup f).any s.contains

/-- An event, and whether it does nothing where its conditions fail. -/
structure Firing (α : Type) where
  event : Event α
  guarded : Bool

variable [Arithmetic α]

/-- The joint distribution of independent groups: the `product` of their distributions, in order. -/
def jointDistribution (groups : List (EffectGroup α)) (holds : GroundFluent → Bool) :
    Distribution α :=
  groups.foldl (fun joint g => joint.product (g.distribution holds)) .certain

/-- The weighted results of an event whose conditions do not matter. The groups draw from their
`jointDistribution` after the effects. -/
def Event.outcomes (table : AtomTable) (e : Event α) (s : AtomSet) : List (α × AtomSet) :=
  let after := s.assignAll e.effects
  (jointDistribution e.groups (table.holdsIn after)).outcomes.map fun (p, literals) =>
    (p, after.assignAll literals)

/-- The weighted results of an event that may be `guarded`: it then leaves a set as it is where its
conditions fail. -/
def Firing.outcomes (table : AtomTable) (f : Firing α) (s : AtomSet) : List (α × AtomSet) :=
  if f.guarded && !s.satisfiesAll f.event.conditions then [(1, s)]
  else f.event.outcomes table s

/-- The weighted results of one more event after weighted results. -/
def fire (table : AtomTable) (branches : List (α × AtomSet)) (f : Firing α) :
    List (α × AtomSet) :=
  branches.flatMap fun (p, s) => (f.outcomes table s).map fun (q, t) => (p * q, t)

/-- The weighted results of events, one after the other (`fire`), beginning with one set of weight
`1`. -/
def fireAll (table : AtomTable) (events : List (Firing α)) (s : AtomSet) : List (α × AtomSet) :=
  events.foldl (fire table) [(1, s)]

/-- Weight added to a result; a result not seen before comes last. -/
def addWeight {β : Type} [DecidableEq β] (weight : α) (result : β) : List (α × β) → List (α × β)
  | [] => [(weight, result)]
  | (w, other) :: rest =>
    if other = result then (w + weight, other) :: rest
    else (w, other) :: addWeight weight result rest

/-- Equal results taken together with `addWeight`, in the order in which they are first seen. -/
def collect {β : Type} [DecidableEq β] (results : List (α × β)) : List (α × β) :=
  results.foldl (fun acc (w, x) => addWeight w x acc) []

end DurativePlanning
