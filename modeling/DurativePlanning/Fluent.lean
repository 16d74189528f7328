import DurativePlanning.Identifier

/-!
# Fluents, Ground and Open

A fluent is a named truth value with arguments. Applied to objects it is a `GroundFluent`; inside an
action schema it is a `Template`, whose arguments may also be parameters of the schema.

* `Template.bind`: a template with objects put in for its parameters.
* `GroundFluent.compare`: the order in which ground fluents are listed when sorted.
-/

namespace DurativePlanning

/-- A fluent applied to objects. -/
structure GroundFluent where
  fluent : FluentId
  args : List ObjectId
  deriving DecidableEq, Repr, Inhabited, Hashable

/-- Ground fluents are ordered by fluent, then by arguments, a shorter list before its
extensions. -/
def GroundFluent.compare (f g : GroundFluent) : Ordering :=
  (Ord.compare f.fluent.index g.fluent.index).then
    (Ord.compare (f.args.map (·.index)) (g.args.map (·.index)))

/-- Ground fluents in the order of `GroundFluent.compare`; equal ones keep their places. -/
def GroundFluent.sort (fluents : List GroundFluent) : List GroundFluent :=
  fluents.mergeSort fun f g => (f.compare g).isLE

/-- An argument of a template: a parameter of the schema by position (`param`), or a fixed object
(`object`). -/
inductive Term where
  | param (index : Nat)
  | object (id : ObjectId)
  deriving DecidableEq, Repr, Inhabited

/-- The object that a term stands for once the parameters are bound, unless `bindings` has no such
parameter. -/
def Term.bind (bindings : List ObjectId) : Term → Option ObjectId
  | param index => bindings[index]?
  | object id => some id

/-- The parameter that a term refers to, if it is a `param`. -/
def Term.param? : Term → Option Nat
  | param index => some index
  | object _ => none

/-- A fluent applied to terms; with the parameters bound it becomes a `GroundFluent`. -/
structure Template where
  fluent : FluentId
  args : List Term
  deriving DecidableEq, Repr, Inhabited

namespace Template

/-- A template without arguments. -/
def nullary (fluent : FluentId) : Template := ⟨fluent, []⟩

/-- A template whose arguments are all fixed, so that `bind` gives the same whatever the bindings
are. -/
def constant (fluent : FluentId) (objects : List ObjectId) : Template :=
  ⟨fluent, objects.map Term.object⟩

/-- The ground fluent that a template stands for once the parameters are bound, unless some
`Term.bind` has no result. -/
def bind (bindings : List ObjectId) (t : Template) : Option GroundFluent :=
  (t.args.mapM (Term.bind bindings)).map (⟨t.fluent, ·⟩)

/-- The greatest parameter that a template refers to (`Term.param?`), zero when there is none. -/
def maxParam (t : Template) : Nat := (t.args.filterMap Term.param?).foldl max 0

end Template

end DurativePlanning
