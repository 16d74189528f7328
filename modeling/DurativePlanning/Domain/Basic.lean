import DurativePlanning.Schema
import DurativePlanning.Universe

/-!
# Planning Domains

A domain is an authored planning problem: declarations, action schemas, initial values, goals and a
deadline. It may restrict which tuples of objects a schema is applied to, and it carries the kind of
compilation it is meant for.

* `DomainKind`: the three kinds, and their names.
* `GroundingMap`: the tuples allowed per schema.
* `Domain.withLaw`: a domain in which one law is replaced.
-/

namespace DurativePlanning

/-- How a domain is meant to be compiled. Some domains declare resources differently per kind. -/
inductive DomainKind where
  | regular
  | regularAsBaseline
  | combination
  deriving DecidableEq, Repr, Inhabited

namespace DomainKind

def all : List DomainKind := [regular, regularAsBaseline, combination]

/-- The name of a kind in files and on the command line. -/
def text : DomainKind → String
  | regular => "regular"
  | regularAsBaseline => "regular_as_baseline"
  | combination => "combination"

/-- The kind with a given `text`. -/
def ofText? (s : String) : Option DomainKind := all.find? (·.text == s)

end DomainKind

/-- The tuples of objects to which schemas may be applied, by schema in ascending order. A schema
without an entry may be applied to all tuples of the right types. -/
structure GroundingMap where
  entries : List (SchemaId × List (List ObjectId))
  deriving DecidableEq, Repr

namespace GroundingMap

def empty : GroundingMap := ⟨[]⟩

/-- An entry put in its place in an ascending list; an entry of the same schema gives way. -/
def insertInto (id : SchemaId) (tuples : List (List ObjectId)) :
    List (SchemaId × List (List ObjectId)) → List (SchemaId × List (List ObjectId))
  | [] => [(id, tuples)]
  | (other, kept) :: rest =>
    if id.index < other.index then (id, tuples) :: (other, kept) :: rest
    else if id = other then (id, tuples) :: rest
    else (other, kept) :: insertInto id tuples rest

/-- A map with the tuples of one schema, in the place of those it had before. -/
def insert (m : GroundingMap) (id : SchemaId) (tuples : List (List ObjectId)) : GroundingMap :=
  ⟨insertInto id tuples m.entries⟩

/-- The tuples of one schema, if it has an entry. -/
def get? (m : GroundingMap) (id : SchemaId) : Option (List (List ObjectId)) := m.entries.lookup id

/-- The number of schemas that have an entry. -/
def size (m : GroundingMap) : Nat := m.entries.length

end GroundingMap

/-- An authored planning problem. Ground fluents without an explicit value in `initial` have the
default value of their fluent; of several explicit values the last counts. -/
structure Domain (α : Type) where
  name : String
  kind : DomainKind
  declarations : Universe := {}
  schemas : List (Schema α) := []
  initial : List (GroundFluent × Bool) := []
  goals : List (GroundFluent × Bool) := []
  deadline : Nat := 0
  grounding : Option GroundingMap := none
  /-- Numbers that tell apart differently sized problems of one name. -/
  sizeParams : List Nat := []

namespace Domain

variable {α : Type}

/-- A domain in which nothing has been authored yet. -/
def named (name : String) (kind : DomainKind) : Domain α := { name, kind }

/-- The schema with a given identifier. -/
def schema? (d : Domain α) (id : SchemaId) : Option (Schema α) := d.schemas[id.index]?

/-- The schema with a given name, or `ModelError.unknownSchema`. -/
def schemaId (d : Domain α) (name : String) : Except ModelError SchemaId :=
  match d.schemas.findIdx? (·.name == name) with
  | some i => .ok ⟨i⟩
  | none => .error (.unknownSchema (.named name))

/-! ### Authoring -/

/-- A domain with one more schema, whose name must be new (`ModelError.duplicateName`). -/
def addSchema (d : Domain α) (s : Schema α) : Except ModelError (SchemaId × Domain α) :=
  if d.schemas.any (·.name == s.name) then .error (.duplicateName .action s.name)
  else .ok (⟨d.schemas.length⟩, { d with schemas := d.schemas ++ [s] })

/-- A domain with one more initial value. -/
def addInitial (d : Domain α) (f : GroundFluent) (value : Bool) : Domain α :=
  { d with initial := d.initial ++ [(f, value)] }

/-- A domain with one more goal. -/
def addGoal (d : Domain α) (f : GroundFluent) (value : Bool) : Domain α :=
  { d with goals := d.goals ++ [(f, value)] }

/-- A domain in which a schema is applied to the given tuples only; they replace those that were
given before (`GroundingMap.insert`). -/
def addGrounding (d : Domain α) (id : SchemaId) (tuples : List (List ObjectId)) : Domain α :=
  { d with grounding := some ((d.grounding.getD .empty).insert id tuples) }

def withDeadline (d : Domain α) (deadline : Nat) : Domain α := { d with deadline }

def withGrounding (d : Domain α) (map : GroundingMap) : Domain α := { d with grounding := some map }

/-- The tuples that a schema is restricted to, if the grounding map has an entry for it. -/
def tuples? (d : Domain α) (id : SchemaId) : Option (List (List ObjectId)) :=
  d.grounding.bind (·.get? id)

end Domain

/-- Whether a law assigns only targets that its group has: its `maxTarget?` lies below their
number. -/
def checkTargets {α : Type} (schema : String) (group targets : Nat) (law : Law α) :
    Except ModelError Unit :=
  match law.maxTarget? with
  | some target =>
    if target < targets then .ok () else .error (.invalidOutcomeTarget schema group target targets)
  | none => .ok ()

/-- A domain in which the law of one group of one schema is replaced, after `checkTargets` only. -/
def Domain.withLaw {α : Type} (d : Domain α) (schema : String) (group : Nat) (law : Law α) :
    Except ModelError (Domain α) := do
  let id ← d.schemaId schema
  match (d.schema? id).bind (·.groups[group]?) with
  | none => .error (.unknownEffectGroup schema group)
  | some target =>
    checkTargets schema group target.targets.length law
    return { d with schemas := d.schemas.modify id.index fun s =>
      { s with groups := s.groups.modify group fun g => { g with law } } }

end DurativePlanning
