import DurativePlanning.Problem.Combination
import DurativePlanning.Storage.Model

/-!
# The Stored Form of a Problem

How events, actions and the problems of a bundle are stored in documents.

* `BundleCodec`: a way to store bundles.
* `BundleCodec.yaml`: the way in use.
-/

namespace DurativePlanning.Storage

open Yaml

instance : Stored ProblemCore where
  toNode c := .record [("name", toNode c.name), ("universe", toNode c.declarations),
    ("atoms", toNode c.atoms), ("initial", toNode c.initial), ("goals", toNode c.goals),
    ("deadline", toNode c.deadline)]
  ofNode node := do
    let fields ← node.fields ["name", "universe", "atoms", "initial", "goals", "deadline"]
    let deadline : Number32 ← fields.get "deadline"
    return ⟨← fields.get "name", ← fields.get "universe", ← fields.get "atoms",
      ← fields.get "initial", ← fields.get "goals", deadline.value⟩

instance : Stored Combination where
  toNode c := .record
    [("name", toNode c.name), ("parts", toNode c.parts), ("resources", toNode c.resources)]
  ofNode node := do
    let fields ← node.fields ["name", "parts", "resources"]
    let parts : Nat × Nat ← fields.get "parts"
    return ⟨← fields.get "name", parts.1, parts.2, ← fields.get "resources"⟩

variable {α : Type} [Stored α]

instance : Stored (Event α) where
  toNode e := .record [("name", toNode e.name), ("preconditions", toNode e.conditions),
    ("effects", toNode e.effects), ("groups", toNode e.groups)]
  ofNode node := do
    let fields ← node.fields ["name", "preconditions", "effects", "groups"]
    return ⟨← fields.get "name", ← fields.get "preconditions", ← fields.get "effects",
      ← fields.get "groups"⟩

instance : Stored (SplitAction α) where
  toNode a := .record [("name", toNode a.name), ("start", toNode a.start),
    ("end", toNode a.finish), ("duration", toNode a.duration)]
  ofNode node := do
    let fields ← node.fields ["name", "start", "end", "duration"]
    let duration : Number32 ← fields.get "duration"
    return ⟨← fields.get "name", ← fields.get "start", ← fields.get "end", duration.value⟩

/-- The fields of an action that follow its events. -/
def actionFields (a : ConvertedAction α) (course : Yaml.Node) : Yaml.Node :=
  .record [("action", course), ("resources", toNode a.resources),
    ("combinable", toNode a.combinable)]

instance : Stored (ConvertedAction α) where
  toNode a :=
    match a.course with
    | .instant event => (actionFields a (toNode event)).tagged "instant"
    | .split action => (actionFields a (toNode action)).tagged "split"
  ofNode node := do
    let node ← node.resolve
    let fields ← node.fields ["action", "resources", "combinable"]
    let course ← match node.variant? with
      | some "instant" => Course.instant <$> fields.get "action"
      | some "split" => Course.split <$> fields.get "action"
      | _ => throw (.wrongValue "an action")
    return ⟨course, ← fields.get "resources", ← fields.get "combinable"⟩

instance : Stored (ConvertedProblem α) where
  toNode p := .record [("core", toNode p.core), ("actions", toNode p.actions)]
  ofNode node := do
    let fields ← node.fields ["core", "actions"]
    return ⟨← fields.get "core", ← fields.get "actions"⟩

instance : Stored (CombinationProblem α) where
  toNode p := .record [("core", toNode p.core), ("singles", toNode p.singles),
    ("combinations", toNode p.combinations)]
  ofNode node := do
    let fields ← node.fields ["core", "singles", "combinations"]
    return ⟨← fields.get "core", ← fields.get "singles", ← fields.get "combinations"⟩

instance : Stored (Bundle α) where
  toNode b := .record [("combination", toNode b.combination), ("split", toNode b.split)]
  ofNode node := do
    let fields ← node.fields ["combination", "split"]
    return ⟨← fields.get "combination", ← fields.get "split"⟩

/-- A way to store bundles as text. -/
structure BundleCodec (α : Type) where
  encode : Bundle α → String
  decode : String → Except ReadError (Bundle α)

/-- Bundles as documents, by `write` and `read`. -/
def BundleCodec.yaml : BundleCodec α := ⟨write, read⟩

end DurativePlanning.Storage
