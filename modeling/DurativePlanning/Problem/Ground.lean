import DurativePlanning.Domain.Basic
import DurativePlanning.Problem.Core

/-!
# Grounding

Grounding applies each schema to every tuple of objects that it is allowed for, and numbers the
ground fluents that it meets. Atoms are numbered in a fixed order: the instances of fluents that
hold by default, explicit initial values, goals, and then, action by action, what conditions,
effects, resources and targets mention. Fluents that only conditions of laws mention get no number;
they never change, and without a number they are false.

* `tuplesOver`: all tuples with one object from each of some lists.
* `GroundAction`: a schema with every parameter bound.
* `Domain.ground`: the ground problem of a domain.
-/

namespace DurativePlanning

variable {α : Type}

/-- A schema with every parameter bound, and its templates replaced by atoms. -/
structure GroundAction (α : Type) where
  name : String
  schema : SchemaId
  args : List ObjectId
  duration : Nat
  conditions : List (Timing × Literal)
  effects : List (EffectTiming × Literal)
  groups : List (EffectGroup α)
  resources : AtomSet
  combinable : Bool

/-- A problem whose actions have no parameters. -/
structure GroundProblem (α : Type) where
  core : ProblemCore
  actions : List (GroundAction α)

/-- The same problem with another deadline. -/
def GroundProblem.withDeadline (p : GroundProblem α) (deadline : Nat) : GroundProblem α :=
  { p with core := p.core.withDeadline deadline }

/-- All tuples with one member from each list; the last place varies fastest. -/
def tuplesOver {β : Type} : List (List β) → List (List β)
  | [] => [[]]
  | options :: rest => options.flatMap fun x => (tuplesOver rest).map (x :: ·)

/-- All tuples of objects of the given types (`tuplesOver` the lists `objectsOf` each type). -/
def Universe.tuplesOf (u : Universe) (types : List TypeId) : List (List ObjectId) :=
  tuplesOver (types.map u.objectsOf)

/-- The ground fluents that hold unless a domain says otherwise: all instances of the fluents whose
`default` is true. -/
def Universe.defaultTrue (u : Universe) : List GroundFluent :=
  u.allFluents.flatMap fun id =>
    match u.fluent? id with
    | some decl => if decl.default then (u.tuplesOf decl.params).map (⟨id, ·⟩) else []
    | none => []

/-- The set of atoms after giving an atom a value. -/
def AtomSet.assign (s : AtomSet) (l : Literal) : AtomSet :=
  if l.value then s.insert l.atom else s.erase l.atom

/-! ### Numbering -/

/-- The number of a ground fluent that passes `checkSignature`. -/
def AtomTable.internChecked (t : AtomTable) (u : Universe) (f : GroundFluent) :
    Except ModelError (AtomId × AtomTable) := do
  u.checkSignature f
  return t.internAtom f

/-- The literals of ground fluents with values, numbered in order by `internChecked`. -/
def AtomTable.internLiterals (u : Universe) :
    AtomTable → List (GroundFluent × Bool) → Except ModelError (List Literal × AtomTable)
  | t, [] => .ok ([], t)
  | t, (f, value) :: rest => do
    let (a, t) ← t.internChecked u f
    let (literals, t) ← internLiterals u t rest
    return (⟨a, value⟩ :: literals, t)

/-- The number of the ground fluent that `Template.bind` gives under some bindings. -/
def AtomTable.internTemplate (t : AtomTable) (u : Universe) (schema : String)
    (bindings : List ObjectId) (template : Template) : Except ModelError (AtomId × AtomTable) :=
  match template.bind bindings with
  | none => .error (.unboundParameter schema template.maxParam)
  | some f => t.internChecked u f

/-- The numbers of templates' ground fluents, given out in order by `internTemplate`. -/
def AtomTable.internTemplates (u : Universe) (schema : String) (bindings : List ObjectId) :
    AtomTable → List Template → Except ModelError (List AtomId × AtomTable)
  | t, [] => .ok ([], t)
  | t, template :: rest => do
    let (a, t) ← t.internTemplate u schema bindings template
    let (atoms, t) ← internTemplates u schema bindings t rest
    return (a :: atoms, t)

/-- The groups of a schema under some bindings, their targets numbered in order. -/
def AtomTable.internGroups (u : Universe) (schema : String) (bindings : List ObjectId) :
    AtomTable → List (EffectSchema α) → Except ModelError (List (EffectGroup α) × AtomTable)
  | t, [] => .ok ([], t)
  | t, g :: rest => do
    let (targets, t) ← t.internTemplates u schema bindings g.targets
    let (groups, t) ← internGroups u schema bindings t rest
    return (⟨targets, g.law, bindings⟩ :: groups, t)

/-! ### Actions -/

namespace Schema

/-- Whether objects have the types of a schema's parameters, place by place. -/
def checkObjects (s : Schema α) (u : Universe) :
    List (String × TypeId) → List ObjectId → Except ModelError Unit
  | (parameter, expected) :: params, object :: objects =>
    match u.object? object with
    | none => .error (.unknownObject (.numbered object.index))
    | some decl =>
      if decl.type = expected then checkObjects s u params objects
      else .error (.typeMismatch s.name parameter (u.typeName expected) decl.name
        (u.typeName decl.type))
  | _, _ => .ok ()

/-- Whether a schema can be applied to a tuple: the lengths agree, and so do the types
(`checkObjects`). -/
def checkTuple (s : Schema α) (u : Universe) (tuple : List ObjectId) : Except ModelError Unit :=
  if tuple.length = s.params.length then s.checkObjects u s.params tuple
  else .error (.arityMismatch s.name s.params.length tuple.length)

/-- A schema applied to a tuple. What it mentions is numbered in order: conditions, effects,
resources, and the targets of its groups. -/
def instantiate (s : Schema α) (u : Universe) (id : SchemaId) (t : AtomTable)
    (tuple : List ObjectId) : Except ModelError (GroundAction α × AtomTable) := do
  let (conditions, t) ← t.internTemplates u s.name tuple (s.conditions.map (·.fluent))
  let (effects, t) ← t.internTemplates u s.name tuple (s.effects.map (·.fluent))
  let (resources, t) ← t.internTemplates u s.name tuple s.resources
  let (groups, t) ← t.internGroups u s.name tuple s.groups
  return ({
    name := applied s.name (tuple.map u.objectName)
    schema := id
    args := tuple
    duration := s.duration
    conditions := s.conditions.zipWith (fun c a => (c.timing, ⟨a, c.value⟩)) conditions
    effects := s.effects.zipWith (fun e a => (e.timing, ⟨a, e.value⟩)) effects
    groups
    resources := .ofList resources
    combinable := s.combinable }, t)

/-- A schema applied to each of some tuples in turn (`instantiate`), with the table carried
along. -/
def instantiateAll (s : Schema α) (u : Universe) (id : SchemaId) :
    AtomTable → List (List ObjectId) → Except ModelError (List (GroundAction α) × AtomTable)
  | t, [] => .ok ([], t)
  | t, tuple :: rest => do
    let (action, t) ← s.instantiate u id t tuple
    let (actions, t) ← instantiateAll s u id t rest
    return (action :: actions, t)

end Schema

namespace Domain

/-- The tuples that a schema is applied to: the listed ones, which must pass `checkTuple`, or else
all tuples of the right types (`Universe.tuplesOf`). -/
def tuplesFor (d : Domain α) (id : SchemaId) (s : Schema α) :
    Except ModelError (List (List ObjectId)) :=
  match d.tuples? id with
  | some tuples => do
    tuples.forM (s.checkTuple d.declarations)
    return tuples
  | none => .ok (d.declarations.tuplesOf (s.params.map Prod.snd))

/-- The actions of some schemas, the first of which has a given number. -/
def groundSchemas (d : Domain α) :
    (next : Nat) → AtomTable → List (Schema α) →
      Except ModelError (List (GroundAction α) × AtomTable)
  | _, t, [] => .ok ([], t)
  | next, t, s :: rest => do
    let tuples ← d.tuplesFor ⟨next⟩ s
    let (actions, t) ← s.instantiateAll d.declarations ⟨next⟩ t tuples
    let (others, t) ← groundSchemas d (next + 1) t rest
    return (actions ++ others, t)

/-- The table that holds just the instances that are true by default (`defaultTrue`), and the set of
all of them. -/
def defaults (d : Domain α) : AtomTable × AtomSet :=
  let t : AtomTable := .ofList d.declarations.defaultTrue
  (t, .ofList t.atoms)

/-- The ground problem of a domain: the `defaults` are numbered first, then initial values, goals,
and what the schemas mention. -/
def ground (d : Domain α) : Except ModelError (GroundProblem α) := do
  let (t, defaults) := d.defaults
  let (initial, t) ← t.internLiterals d.declarations d.initial
  let (goals, t) ← t.internLiterals d.declarations d.goals
  let (actions, t) ← d.groundSchemas 0 t d.schemas
  return {
    core := {
      name := d.name
      declarations := d.declarations
      atoms := t
      initial := initial.foldl AtomSet.assign defaults
      goals
      deadline := d.deadline }
    actions }

end Domain

end DurativePlanning
