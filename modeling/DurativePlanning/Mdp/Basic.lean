import DurativePlanning.Mdp.Event
import DurativePlanning.Mdp.State
import DurativePlanning.Problem.Combination

/-!
# The Decision Process

A compiled problem is read as a decision process in one of two ways. In split mode a decision starts
one event or waits; one tick then passes, and the actions that are due end. In combination mode a
decision runs one action or one combination to completion. A decision that takes longer than the
time left leads to the failed state.

* `Mdp.ofConverted`, `Mdp.ofCombination`: the process of a problem whose laws are distributions.
* `Mdp.isApplicable`, `Mdp.transitions`: which decisions there are, and what they lead to.
* `Mdp.sample`: the successor that a number between zero and one picks.
* `Mdp.goalsSatisfied`, `Mdp.elapsed`: what is known about a state.
-/

namespace DurativePlanning

/-- What a decision does: one of the first three in split mode, one of the others in combination
mode. -/
inductive ActionKind where
  /-- Starts an action that has extent; its end follows by itself. -/
  | start (action : Nat)
  /-- Does an action that has no extent. -/
  | instant (action : Nat)
  /-- Lets one tick pass. -/
  | wait
  /-- Runs one action to completion. -/
  | single (action : Nat)
  /-- Runs a combination to completion. -/
  | combined (combination : Nat)
  deriving DecidableEq, Repr

inductive Mode where
  | split
  | combination
  deriving DecidableEq, Repr

/-- Why a problem is not read as a process. -/
inductive MdpError (α : Type) where
  | law (cause : LawError α)
  | invalidDiscount (value : α)
  deriving Repr

/-- The text of an error, as it is reported. -/
def MdpError.message : MdpError Float → String
  | law cause => cause.message
  | invalidDiscount value =>
    s!"discount factor must be within [0, 1], got {Layout.message.text value}"

/-- A decision process. Decisions are numbered by their positions in `actions`. -/
structure Mdp (α : Type) where
  mode : Mode
  core : ProblemCore
  discount : α
  singles : Array (ConvertedAction α)
  combinations : Array Combination
  actions : Array (String × ActionKind)

variable {α : Type}

namespace Mdp

/-! ### Building -/

/-- The decision that begins the action at a position in split mode: `start` if it has extent, else
`instant`. -/
def startOf (a : ConvertedAction α) (i : Nat) : String × ActionKind :=
  match a.course with
  | .instant event => (event.name, .instant i)
  | .split action => (action.start.name, .start i)

/-- The decisions of split mode: one per action (`startOf`), and `wait`. -/
def splitActions (singles : List (ConvertedAction α)) : List (String × ActionKind) :=
  singles.mapIdx (fun i a => startOf a i) ++ [("wait", .wait)]

/-- The decisions of combination mode: one `single` per action, then one `combined` per
combination. -/
def combinationActions (singles : List (ConvertedAction α)) (combinations : List Combination) :
    List (String × ActionKind) :=
  singles.mapIdx (fun i a => (a.name, .single i)) ++
    combinations.mapIdx fun j c => (c.name, .combined j)

section

variable [Arithmetic α]

/-- Whether the laws of all groups of an action pass `Law.check`. -/
def checkLaws (a : ConvertedAction α) : Except (LawError α) Unit :=
  a.events.forM fun e => e.groups.zipIdx.forM fun (g, i) => g.law.check a.name i Law.tolerance

/-- Whether a discount lies between zero and one (`Arithmetic.isUnit`) and all actions pass
`checkLaws`. -/
def check (singles : List (ConvertedAction α)) (discount : α) : Except (MdpError α) Unit :=
  if Arithmetic.isUnit discount then
    match singles.forM checkLaws with
    | .ok () => .ok ()
    | .error cause => .error (.law cause)
  else .error (.invalidDiscount discount)

/-- The process of a converted problem that passes `check`, one event per decision. -/
def ofConverted (p : ConvertedProblem α) (discount : α) : Except (MdpError α) (Mdp α) := do
  check p.actions discount
  return ⟨.split, p.core, discount, p.actions.toArray, #[], (splitActions p.actions).toArray⟩

/-- The process of a combination problem that passes `check`, one run to completion per decision. -/
def ofCombination (p : CombinationProblem α) (discount : α) : Except (MdpError α) (Mdp α) := do
  check p.singles discount
  return ⟨.combination, p.core, discount, p.singles.toArray, p.combinations.toArray,
    (combinationActions p.singles p.combinations).toArray⟩

end

/-! ### Decisions -/

/-- What a decision does, if there is one at this position. -/
def kind? (m : Mdp α) (action : Nat) : Option ActionKind := (m.actions[action]?).map Prod.snd

/-- The name of a decision, if there is one at this position. -/
def actionName? (m : Mdp α) (action : Nat) : Option String := (m.actions[action]?).map Prod.fst

/-- The first decision with a given name; `Mdp.names_identify` says when it is the only one. -/
def actionIndex? (m : Mdp α) (name : String) : Option Nat := m.actions.findIdx? (·.1 == name)

def deadline (m : Mdp α) : Nat := m.core.deadline

/-- The parts of a combination that are there. -/
def partsOf (m : Mdp α) (c : Combination) : List (ConvertedAction α) :=
  c.parts.filterMap (m.singles[·]?)

/-- The ticks that a decision takes: one in split mode, and the longest `span` of its parts in
combination mode. -/
def cost (m : Mdp α) : ActionKind → Nat
  | .start _ | .instant _ | .wait => 1
  | .single i => ((m.singles[i]?).map (·.span)).getD 1
  | .combined j =>
    match m.combinations[j]? with
    | some c => (((m.partsOf c).map (·.span)).max?).getD 1
    | none => 1

/-- Whether the conditions of an action's first event hold (`satisfiesAll`). -/
def canBegin (m : Mdp α) (s : State) (action : Nat) : Bool :=
  (m.singles[action]?).any fun a => s.atoms.satisfiesAll a.start.conditions

/-- Whether a decision can be taken in a state that has not failed: its actions `canBegin`, and in
split mode an action that is `inFlight` is not started again. -/
def admits (m : Mdp α) (s : State) : ActionKind → Bool
  | .start i => !s.inFlight i && m.canBegin s i
  | .instant i | .single i => m.canBegin s i
  | .wait => true
  | .combined j => (m.combinations[j]?).any fun c => c.parts.all (m.canBegin s)

/-- Whether a decision can be taken: the state has not failed, and `admits` the kind of the
decision. -/
def isApplicable (m : Mdp α) (s : State) (action : Nat) : Bool :=
  !s.isFailed && (m.kind? action).any (m.admits s)

/-- The decisions for which `isApplicable` holds, in order. -/
def applicable (m : Mdp α) (s : State) : List Nat :=
  (List.range m.actions.size).filter (m.isApplicable s)

/-! ### Successors -/

/-- The agenda after a decision in split mode, before the tick. -/
def agendaAfter (m : Mdp α) (agenda : Agenda) : ActionKind → Agenda
  | .start i =>
    match m.singles[i]? with
    | some ⟨.split action, _, _⟩ => agenda.insert ⟨action.duration, i⟩
    | _ => agenda
  | _ => agenda

/-- The event that a decision in split mode fires at once; it is not guarded. -/
def eventOf (m : Mdp α) : ActionKind → List (Firing α)
  | .start i | .instant i => (m.singles[i]?).toList.map fun a => ⟨a.start, false⟩
  | _ => []

/-- The end events of the actions that are `due`, each guarded. -/
def endsOf (m : Mdp α) (due : List InFlight) : List (Firing α) :=
  due.filterMap fun entry =>
    ((m.singles[entry.action]?).bind (·.finish?)).map fun e => ⟨e, true⟩

/-- The events of one tick in split mode: the chosen one (`eventOf`), then the ends that are due
(`endsOf`). -/
def splitEvents (m : Mdp α) (agenda : Agenda) (kind : ActionKind) : List (Firing α) :=
  m.eventOf kind ++ m.endsOf (m.agendaAfter agenda kind).due

/-- The events of actions that run to completion side by side: all starts, then all guarded ends. -/
def macroEvents (parts : List (ConvertedAction α)) : List (Firing α) :=
  parts.map (fun a => ⟨a.start, false⟩) ++
    parts.filterMap fun a => a.finish?.map fun e => ⟨e, true⟩

section

variable [Arithmetic α]

/-- The successors in split mode: the `splitEvents` are fired, equal results are taken together
(`collect`), and the agenda moves on by one tick (`pending`). -/
def splitStep (m : Mdp α) (s : State) (kind : ActionKind) (remaining : Nat) : List (α × State) :=
  let branches := fireAll m.core.atoms (m.splitEvents s.agenda kind) s.atoms
  let pending := (m.agendaAfter s.agenda kind).pending
  collect (branches.map fun (p, atoms) => (p, .running atoms remaining pending))

/-- The successors in combination mode: the `macroEvents` of the parts are fired, and equal results
are taken together (`collect`). -/
def macroStep (m : Mdp α) (s : State) (parts : List (ConvertedAction α)) (remaining : Nat) :
    List (α × State) :=
  let branches := fireAll m.core.atoms (macroEvents parts) s.atoms
  collect (branches.map fun (p, atoms) => (p, .running atoms remaining .empty))

/-- The successors of a decision that `isApplicable` and that the time left suffices for. -/
def step (m : Mdp α) (s : State) (remaining : Nat) : ActionKind → List (α × State)
  | .single i => m.macroStep s (m.singles[i]?).toList remaining
  | .combined j =>
    match m.combinations[j]? with
    | some c => m.macroStep s (m.partsOf c) remaining
    | none => [(1, s)]
  | kind => m.splitStep s kind remaining

/-- The successors of a decision with their probabilities, each state once. A decision that is not
applicable leaves the state as it is, and one whose `cost` overruns the time left fails. -/
def transitions (m : Mdp α) (s : State) (action : Nat) : List (α × State) :=
  match m.kind? action with
  | none => [(1, s)]
  | some kind =>
    if m.isApplicable s action then
      let cost := m.cost kind
      if s.remaining < cost then [(1, .failed)]
      else m.step s (s.remaining - cost) kind
    else [(1, s)]

/-- The first result whose weight, together with all before it, reaches `sample`; the last result
when none does. -/
def pickAt {β : Type} (sample : α) : (sum : α) → List (α × β) → Option β
  | _, [] => none
  | sum, (p, x) :: rest =>
    if sum + p < sample then (pickAt sample (sum + p) rest).or (some x) else some x

/-- The successor that a number between zero and one picks (`pickAt`); the state itself if there is
none. -/
def sample (m : Mdp α) (s : State) (action : Nat) (u : α) : State :=
  (pickAt u 0 (m.transitions s action)).getD s

end

/-! ### Goals and time -/

/-- The state in which the process begins. -/
def initialState (m : Mdp α) : State := .running m.core.initial m.core.deadline .empty

/-- The number of goals. -/
def goalCount (m : Mdp α) : Nat := m.core.goals.length

/-- The number of goals that hold; none hold once the process has failed. -/
def goalsSatisfied (m : Mdp α) (s : State) : Nat :=
  if s.isFailed then 0 else m.core.goals.countP s.satisfies

/-- Whether all goals hold: `goalsSatisfied` is `goalCount`, and the process has not failed. -/
def isGoal (m : Mdp α) (s : State) : Bool :=
  !s.isFailed && m.goalsSatisfied s == m.goalCount

/-- The time spent since the beginning: what is left of `deadline`, taken from the deadline. -/
def elapsed (m : Mdp α) (s : State) : Nat := m.deadline - s.remaining

/-- Whether nothing more is decided: the process has failed, or `isGoal` holds. -/
def isTerminal (m : Mdp α) (s : State) : Bool := s.isFailed || m.isGoal s

end Mdp

end DurativePlanning
