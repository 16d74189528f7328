/-!
# Faults in a Model

The causes for which declarations, domains and groundings are refused. A fault names what was wrong;
its wording is in one place, `ModelError.message`.

* `Reference`: how the missing thing was referred to, by name or by number.
* `SignatureFault`: in which way a fluent was misused.
* `ModelError`: every cause.
-/

namespace DurativePlanning

/-- How something was referred to: by its name, or by a number that may be out of range. -/
inductive Reference where
  | named (name : String)
  | numbered (index : Nat)
  deriving DecidableEq, Repr

/-- A name as it stands, a number behind a hash sign, as in the messages of `ModelError`. -/
def Reference.text : Reference → String
  | named name => name
  | numbered index => "#" ++ toString index

/-- The kinds of things that bear unique names. -/
inductive Declared where
  | type
  | object
  | fluent
  | action
  deriving DecidableEq, Repr

/-- The word for a kind in a message. -/
def Declared.text : Declared → String
  | type => "type"
  | object => "object"
  | fluent => "fluent"
  | action => "action"

/-- The ways in which a fluent can be applied wrongly. -/
inductive SignatureFault where
  /-- A ground fluent with too few or too many arguments. -/
  | arity (expected given : Nat)
  /-- A ground fluent with an object of another type. -/
  | argument (position : Nat) (expected object found : String)
  /-- A template with too few or too many arguments. -/
  | templateArity (schema : String) (given expected : Nat)
  /-- A template with a term of another type. -/
  | templateTerm (schema found expected : String)
  deriving DecidableEq, Repr

/-- What a message says of a fault, after the name of the fluent. -/
def SignatureFault.text : SignatureFault → String
  | arity expected given => s!"expected {expected} arguments, got {given}"
  | argument position expected object found =>
    s!"argument {position} expects '{expected}', got '{object}' of type '{found}'"
  | templateArity schema given expected =>
    s!"schema '{schema}' passes {given} arguments, expected {expected}"
  | templateTerm schema found expected =>
    s!"schema '{schema}' passes a '{found}' where '{expected}' is expected"

/-- Why a declaration, a domain or a grounding is refused. -/
inductive ModelError where
  | unknownType (ref : Reference)
  | unknownObject (ref : Reference)
  | unknownFluent (ref : Reference)
  | unknownSchema (ref : Reference)
  | duplicateName (kind : Declared) (name : String)
  | signatureMismatch (fluent : String) (fault : SignatureFault)
  /-- A tuple of a grounding map holds an object of another type than its parameter's. -/
  | typeMismatch (schema parameter expected object found : String)
  /-- A tuple of a grounding map has too few or too many objects. -/
  | arityMismatch (schema : String) (expected found : Nat)
  | unboundParameter (schema : String) (index : Nat)
  /-- A law assigns a target that its group does not have. -/
  | invalidOutcomeTarget (schema : String) (group target targets : Nat)
  | unknownEffectGroup (schema : String) (group : Nat)
  deriving DecidableEq, Repr

/-- The text of an error, as it is reported. -/
def ModelError.message : ModelError → String
  | unknownType ref => s!"unknown type '{ref.text}'"
  | unknownObject ref => s!"unknown object '{ref.text}'"
  | unknownFluent ref => s!"unknown fluent '{ref.text}'"
  | unknownSchema ref => s!"unknown action schema '{ref.text}'"
  | duplicateName kind name => s!"duplicate {kind.text} name '{name}'"
  | signatureMismatch fluent fault =>
    s!"fluent '{fluent}' used with a mismatching signature: {fault.text}"
  | typeMismatch schema parameter expected object found =>
    s!"schema '{schema}' parameter '{parameter}' expects type '{expected}', " ++
      s!"got object '{object}' of type '{found}'"
  | arityMismatch schema expected found =>
    s!"schema '{schema}' takes {expected} parameters, grounding tuple has {found}"
  | unboundParameter schema index =>
    s!"schema '{schema}' references parameter {index} which it does not declare"
  | invalidOutcomeTarget schema group target targets =>
    s!"schema '{schema}' probabilistic group {group} assigns target {target} " ++
      s!"but has only {targets} targets"
  | unknownEffectGroup schema group => s!"schema '{schema}' has no probabilistic group {group}"

end DurativePlanning
