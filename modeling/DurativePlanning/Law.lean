import DurativePlanning.Arithmetic
import DurativePlanning.Decimal.Layout
import DurativePlanning.Fluent

/-!
# Laws of Chance

A law says how likely each outcome of a group of fluents is. It may look at the state: its cases are
tried in order, and the first whose conditions all hold decides.

* `Law.select`: the outcomes that apply in a state.
* `Law.branches`: every list of outcomes that the law can give.
* `Law.check`: every branch holds finite probabilities, none negative, with a sum near one.
-/

namespace DurativePlanning

/-- One possible result: its probability, and the values it gives to targets of its group. Targets
that it does not name stay as they are. -/
structure Outcome (α : Type) where
  prob : α
  assign : List (Nat × Bool)
  deriving BEq, Repr, Inhabited

/-- Outcomes that apply when all conditions hold (`LawCase.applies`). -/
structure LawCase (α : Type) where
  conditions : List (Template × Bool)
  outcomes : List (Outcome α)
  deriving BEq, Repr, Inhabited

/-- How the outcome of a group is drawn: always from the same outcomes, or from those of the first
case that `applies`, or from `otherwise`. -/
inductive Law (α : Type) where
  | fixed (outcomes : List (Outcome α))
  | conditional (cases : List (LawCase α)) (otherwise : List (Outcome α))
  deriving BEq, Repr, Inhabited

/-- Why the probabilities of a law are refused. -/
inductive LawError (α : Type) where
  | invalidProbability (action : String) (group : Nat) (value : α)
  | malformedDistribution (action : String) (group : Nat) (sum tolerance : α)
  deriving Repr

/-- The text of an error, as it is reported. -/
def LawError.message : LawError Float → String
  | invalidProbability action group value =>
    s!"invalid probability {Layout.message.text value} in action '{action}', group {group}"
  | malformedDistribution action group sum tolerance =>
    s!"probabilities of action '{action}', group {group} must sum to 1 within " ++
      s!"{Layout.message.text tolerance}, got {Layout.message.text sum}"

variable {α : Type}

/-- An outcome that changes nothing: its `assign` is empty. -/
def Outcome.unchanged (prob : α) : Outcome α := ⟨prob, []⟩

/-- Whether a condition, once bound, has the wanted value; one that does not bind fails. -/
def conditionHolds (holds : GroundFluent → Bool) (bindings : List ObjectId) :
    Template × Bool → Bool
  | (template, value) =>
    match template.bind bindings with
    | some ground => holds ground == value
    | none => false

/-- Whether all conditions of a case hold (`conditionHolds`). -/
def LawCase.applies (c : LawCase α) (holds : GroundFluent → Bool) (bindings : List ObjectId) :
    Bool :=
  c.conditions.all (conditionHolds holds bindings)

namespace Law

/-- The outcomes that apply in a state, which is given by what `holds` in it: those of the first
case that applies, else those of `otherwise`. -/
def select (law : Law α) (holds : GroundFluent → Bool) (bindings : List ObjectId) :
    List (Outcome α) :=
  match law with
  | fixed outcomes => outcomes
  | conditional cases otherwise =>
    match cases.find? (·.applies holds bindings) with
    | some c => c.outcomes
    | none => otherwise

/-- Every list of outcomes that `select` can give. -/
def branches : Law α → List (List (Outcome α))
  | fixed outcomes => [outcomes]
  | conditional cases otherwise => cases.map (·.outcomes) ++ [otherwise]

/-- The templates that the conditions mention. -/
def templates : Law α → List Template
  | fixed _ => []
  | conditional cases _ => cases.flatMap fun c => c.conditions.map Prod.fst

/-- The greatest target that some outcome of some branch assigns. -/
def maxTarget? (law : Law α) : Option Nat :=
  (law.branches.flatten.flatMap fun o => o.assign.map Prod.fst).max?

variable [Arithmetic α]

/-- The sum of the probabilities of some outcomes, added to `sum`, unless one of them is negative or
not finite. -/
def sumChecked (action : String) (group : Nat) :
    (sum : α) → List (Outcome α) → Except (LawError α) α
  | sum, [] => .ok sum
  | sum, o :: rest =>
    if Arithmetic.isFinite o.prob && !decide (o.prob < 0) then
      sumChecked action group (sum + o.prob) rest
    else .error (.invalidProbability action group o.prob)

/-- Whether a sum is further than the tolerance from one. -/
def offBy (tolerance sum : α) : Bool := decide (tolerance < sum - 1) || decide (tolerance < 1 - sum)

/-- Whether every one of the `branches` is a distribution up to the tolerance; the first fault is
reported. -/
def check (law : Law α) (action : String) (group : Nat) (tolerance : α) :
    Except (LawError α) Unit :=
  law.branches.forM fun outcomes => do
    let sum ← sumChecked action group 0 outcomes
    if offBy tolerance sum then .error (.malformedDistribution action group sum tolerance)

/-- The least tolerance at which `check` judges the sums of probabilities. -/
def tolerance : α := Arithmetic.ratio 1 1000000000

end Law

end DurativePlanning
