import DurativePlanning.Problem.Core
import DurativePlanning.Yaml.Printing

/-!
# The Stored Form of a Model

How declarations, atoms and laws are stored in documents: a structure is a mapping of its fields in
order, a choice between several forms is a tag, an identifier is its number, and a table of atoms is
the list of its ground fluents.
-/

namespace DurativePlanning.Storage

open Yaml

instance : Stored TypeId where
  toNode i := toNode i.index
  ofNode node := TypeId.mk <$> ofNode32 node

instance : Stored ObjectId where
  toNode i := toNode i.index
  ofNode node := ObjectId.mk <$> ofNode32 node

instance : Stored FluentId where
  toNode i := toNode i.index
  ofNode node := FluentId.mk <$> ofNode32 node

instance : Stored AtomId where
  toNode i := toNode i.index
  ofNode node := AtomId.mk <$> ofNode32 node

/-! ### Declarations -/

instance : Stored TypeDecl where
  toNode d := .record [("name", toNode d.name)]
  ofNode node := do
    let fields ← node.fields ["name"]
    return ⟨← fields.get "name"⟩

instance : Stored ObjectDecl where
  toNode d := .record [("name", toNode d.name), ("ty", toNode d.type)]
  ofNode node := do
    let fields ← node.fields ["name", "ty"]
    return ⟨← fields.get "name", ← fields.get "ty"⟩

instance : Stored FluentDecl where
  toNode d := .record
    [("name", toNode d.name), ("params", toNode d.params), ("default", toNode d.default)]
  ofNode node := do
    let fields ← node.fields ["name", "params", "default"]
    return ⟨← fields.get "name", ← fields.get "params", ← fields.get "default"⟩

instance : Stored Universe where
  toNode u := .record [("types", toNode u.types.toList), ("objects", toNode u.objects.toList),
    ("fluents", toNode u.fluents.toList)]
  ofNode node := do
    let fields ← node.fields ["types", "objects", "fluents"]
    let types : List TypeDecl ← fields.get "types"
    let objects : List ObjectDecl ← fields.get "objects"
    let fluents : List FluentDecl ← fields.get "fluents"
    return ⟨types.toArray, objects.toArray, fluents.toArray⟩

/-! ### Atoms -/

instance : Stored GroundFluent where
  toNode f := .record [("fluent", toNode f.fluent), ("args", toNode f.args)]
  ofNode node := do
    let fields ← node.fields ["fluent", "args"]
    return ⟨← fields.get "fluent", ← fields.get "args"⟩

/-- A repeated ground fluent keeps its first number. -/
instance : Stored AtomTable where
  toNode t := toNode t.toList
  ofNode node := Numbering.ofList <$> ofNode node

instance : Stored AtomSet where
  toNode s := toNode s.toList
  ofNode node := AtomSet.ofList <$> ofNode node

instance : Stored Literal where
  toNode l := .record [("atom", toNode l.atom), ("value", toNode l.value)]
  ofNode node := do
    let fields ← node.fields ["atom", "value"]
    return ⟨← fields.get "atom", ← fields.get "value"⟩

/-! ### Laws -/

instance : Stored Term where
  toNode
    | .param index => (toNode index).tagged "param"
    | .object id => (toNode id).tagged "object"
  ofNode node := do
    let node ← node.resolve
    match node.variant? with
    | some "param" => Term.param <$> ofNode node.untagged
    | some "object" => Term.object <$> ofNode node.untagged
    | _ => throw (.wrongValue "a parameter or an object")

instance : Stored Template where
  toNode t := .record [("fluent", toNode t.fluent), ("args", toNode t.args)]
  ofNode node := do
    let fields ← node.fields ["fluent", "args"]
    return ⟨← fields.get "fluent", ← fields.get "args"⟩

variable {α : Type} [Stored α]

instance : Stored (Outcome α) where
  toNode o := .record [("prob", toNode o.prob), ("assign", toNode o.assign)]
  ofNode node := do
    let fields ← node.fields ["prob", "assign"]
    return ⟨← fields.get "prob", ← fields.get "assign"⟩

instance : Stored (LawCase α) where
  toNode c := .record [("when", toNode c.conditions), ("outcomes", toNode c.outcomes)]
  ofNode node := do
    let fields ← node.fields ["when", "outcomes"]
    return ⟨← fields.get "when", ← fields.get "outcomes"⟩

instance : Stored (Law α) where
  toNode
    | .fixed outcomes => (toNode outcomes).tagged "fixed"
    | .conditional cases otherwise =>
      (Node.record [("cases", toNode cases), ("otherwise", toNode otherwise)]).tagged "conditional"
  ofNode node := do
    let node ← node.resolve
    match node.variant? with
    | some "fixed" => Law.fixed <$> ofNode node.untagged
    | some "conditional" => do
      let fields ← node.fields ["cases", "otherwise"]
      return .conditional (← fields.get "cases") (← fields.get "otherwise")
    | _ => throw (.wrongValue "a law")

instance : Stored (EffectGroup α) where
  toNode g := .record
    [("targets", toNode g.targets), ("law", toNode g.law), ("bindings", toNode g.bindings)]
  ofNode node := do
    let fields ← node.fields ["targets", "law", "bindings"]
    return ⟨← fields.get "targets", ← fields.get "law", ← fields.get "bindings"⟩

end DurativePlanning.Storage
