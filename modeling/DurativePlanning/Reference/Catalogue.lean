import DurativePlanning.Reference.FullConc
import DurativePlanning.Reference.Rover
import DurativePlanning.Reference.StuckCar

/-!
# The Reference Domains

* `Reference.names`: their names.
* `Reference.build`: the reference domain with a name.
-/

namespace DurativePlanning.Reference

variable {α : Type} [Arithmetic α]

/-- The names of the reference domains. -/
def names : List String := ["full_conc", "stuck_car_1o", "nasa_rover"]

/-- Why there is no such reference domain. -/
inductive ReferenceError where
  | unknownDomain (name : String)
  /-- No reference domain has garbage actions. -/
  | noGarbage (name : String) (amount : Nat)
  | model (cause : ModelError)
  deriving DecidableEq, Repr

/-- The text of an error, as it is reported. -/
def ReferenceError.message : ReferenceError → String
  | unknownDomain name => s!"unknown domain '{name}'; expected one of: " ++ ", ".intercalate names
  | noGarbage name amount =>
    s!"invalid run configuration: domain '{name}' has no garbage actions, " ++
      s!"garbage_amount must be 0 (got {amount})"
  | model cause => cause.message

/-- A domain as it was authored, with a refusal as `ReferenceError.model`. -/
def authored (d : Except ModelError (Domain α)) : Except ReferenceError (Domain α) :=
  match d with
  | .ok domain => .ok domain
  | .error cause => .error (.model cause)

/-- The reference domain with a name. `objects` is the number of rovers. -/
def build (name : String) (kind : DomainKind) (deadline objects garbage : Nat) :
    Except ReferenceError (Domain α) :=
  if garbage ≠ 0 ∧ names.contains name then .error (.noGarbage name garbage)
  else match name with
    | "full_conc" => authored (fullConc kind deadline)
    | "stuck_car_1o" => authored (stuckCar kind deadline)
    | "nasa_rover" => authored (rover kind deadline objects)
    | _ => .error (.unknownDomain name)

end DurativePlanning.Reference
