import DurativePlanning.Domain.Basic

/-!
# Checking a Domain

An authored domain is accepted when its initial values and goals fit their declarations, each
template of each schema fits its fluent under the types of the schema's parameters, laws assign only
targets of their groups, and the grounding map speaks of declared schemas only. The first fault in
that order is reported.

* `Domain.checkTemplate`: one template of one schema.
* `Domain.validate`: the whole domain.
* `Domain.build`: the domain itself when it is accepted.
-/

namespace DurativePlanning

variable {α : Type}

/-- The type of a term of a schema: that of its parameter, or that of the fixed object. -/
def Schema.termType (s : Schema α) (u : Universe) : Term → Except ModelError TypeId
  | .param index =>
    match s.params[index]? with
    | some (_, type) => .ok type
    | none => .error (.unboundParameter s.name index)
  | .object id =>
    match u.object? id with
    | some decl => .ok decl.type
    | none => .error (.unknownObject (.numbered id.index))

/-- Whether terms have the expected types (`termType`), place by place. -/
def Schema.checkTerms (s : Schema α) (u : Universe) (fluent : String) :
    List TypeId → List Term → Except ModelError Unit
  | expected :: types, term :: terms => do
    let found ← s.termType u term
    if found = expected then checkTerms s u fluent types terms
    else .error (.signatureMismatch fluent
      (.templateTerm s.name (u.typeName found) (u.typeName expected)))
  | _, _ => .ok ()

/-- Whether a template of a schema fits its fluent: the fluent is declared, the count of arguments
is right, and each term has the declared type. -/
def Schema.checkTemplate (s : Schema α) (u : Universe) (t : Template) : Except ModelError Unit :=
  match u.fluent? t.fluent with
  | none => .error (.unknownFluent (.numbered t.fluent.index))
  | some decl =>
    if decl.params.length = t.args.length then s.checkTerms u decl.name decl.params t.args
    else .error (.signatureMismatch decl.name
      (.templateArity s.name t.args.length decl.params.length))

/-- Whether all templates of a schema fit (`checkTemplate`), and all its laws assign only targets
that are there (`checkTargets`). -/
def Schema.validate (s : Schema α) (u : Universe) : Except ModelError Unit := do
  s.templates.forM (s.checkTemplate u)
  s.groups.zipIdx.forM fun (g, i) => checkTargets s.name i g.targets.length g.law

namespace Domain

/-- Whether the grounding map speaks of declared schemas only; the first entry that does not is
reported. -/
def checkGrounding (d : Domain α) : Except ModelError Unit :=
  match d.grounding.bind fun m => m.entries.find? fun e => d.schemas.length ≤ e.1.index with
  | some (id, _) => .error (.unknownSchema (.numbered id.index))
  | none => .ok ()

/-- Whether a domain is accepted: the initial values and goals fit their signatures, each schema
passes `Schema.validate`, and the grounding map passes `checkGrounding`. -/
def validate (d : Domain α) : Except ModelError Unit := do
  (d.initial ++ d.goals).forM fun (f, _) => d.declarations.checkSignature f
  d.schemas.forM (·.validate d.declarations)
  d.checkGrounding

/-- The domain itself when it passes `validate`. -/
def build (d : Domain α) : Except ModelError (Domain α) := do
  d.validate
  return d

end Domain

end DurativePlanning
