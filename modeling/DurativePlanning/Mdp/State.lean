import DurativePlanning.Atom.Set
import DurativePlanning.Atom.Table

/-!
# States

A state says which atoms hold, how much time is left, and which actions are running. Once time runs
out there is one further state, in which nothing holds and nothing is left to do.

* `InFlight`: a running action and the ticks until it ends.
* `State`: a state, failed or not.
* `Agenda.insert`: an action that starts, put in its place among the running ones.
* `Agenda.due`, `Agenda.pending`: what one tick does to the running actions.
-/

namespace DurativePlanning

/-- A running action, by position, and the ticks until it ends. -/
structure InFlight where
  ticksLeft : Nat
  action : Nat
  deriving DecidableEq, Repr

/-- Running actions end in order of `ticksLeft`, then of their positions. -/
def InFlight.notAfter (a b : InFlight) : Bool :=
  decide (a.ticksLeft < b.ticksLeft) ||
    (a.ticksLeft == b.ticksLeft && decide (a.action ≤ b.action))

/-- What `notAfter` compares, as a proposition. -/
theorem InFlight.notAfter_iff {a b : InFlight} :
    a.notAfter b = true ↔
      a.ticksLeft < b.ticksLeft ∨ (a.ticksLeft = b.ticksLeft ∧ a.action ≤ b.action) := by
  simp [notAfter]

/-- `notAfter` is transitive. -/
theorem InFlight.notAfter_trans (a b c : InFlight) (hab : a.notAfter b = true)
    (hbc : b.notAfter c = true) : a.notAfter c = true := by
  rw [notAfter_iff] at *
  omega

/-- `notAfter` is total, which together with transitivity is what sorting needs. -/
theorem InFlight.notAfter_total (a b : InFlight) : (a.notAfter b || b.notAfter a) = true := by
  rw [Bool.or_eq_true, notAfter_iff, notAfter_iff]
  omega

/-- A running action one tick later. -/
def InFlight.tick (entry : InFlight) : InFlight := { entry with ticksLeft := entry.ticksLeft - 1 }

/-- The running actions in the order in which they end (`InFlight.notAfter`). -/
structure Agenda where
  toList : List InFlight
  ordered : toList.Pairwise fun a b => a.notAfter b = true
  deriving DecidableEq

namespace Agenda

/-- No action is running. -/
def empty : Agenda := ⟨[], .nil⟩

instance : Inhabited Agenda := ⟨empty⟩

/-- The entries of a list, put in order by a stable sort along `InFlight.notAfter`. -/
def ofList (entries : List InFlight) : Agenda :=
  ⟨entries.mergeSort InFlight.notAfter,
    List.pairwise_mergeSort InFlight.notAfter_trans InFlight.notAfter_total entries⟩

/-- An agenda with one more entry. -/
def insert (agenda : Agenda) (entry : InFlight) : Agenda := ofList (entry :: agenda.toList)

/-- The entries that end with the next `tick`, in order. -/
def due (agenda : Agenda) : List InFlight :=
  (agenda.toList.map InFlight.tick).filter (·.ticksLeft == 0)

/-- The agenda one `tick` later, without the entries that end with it (`due`). -/
def pending (agenda : Agenda) : Agenda where
  toList := (agenda.toList.map InFlight.tick).filter (·.ticksLeft != 0)
  ordered := by
    rw [List.pairwise_filter, List.pairwise_map]
    refine agenda.ordered.imp fun {a b} hab ha hb => ?_
    -- an entry that goes on has at least two ticks left, so no subtraction stops at zero
    simp only [InFlight.notAfter_iff, InFlight.tick, bne_iff_ne] at *
    omega

end Agenda

/-- A state of the process. Two states are equal when they have the same atoms, the same time left
and the same agenda, or when both have failed. -/
inductive State where
  /-- The deadline has been overrun. -/
  | failed
  | running (atoms : AtomSet) (remaining : Nat) (agenda : Agenda)
  deriving DecidableEq

namespace State

instance : Inhabited State := ⟨failed⟩

/-- The atoms that hold. -/
def atoms : State → AtomSet
  | failed => .empty
  | running atoms _ _ => atoms

/-- The ticks that are left. -/
def remaining : State → Nat
  | failed => 0
  | running _ remaining _ => remaining

/-- The running actions. -/
def agenda : State → Agenda
  | failed => .empty
  | running _ _ agenda => agenda

/-- Whether the deadline has been overrun. -/
def isFailed : State → Bool
  | failed => true
  | running _ _ _ => false

/-- Whether an atom holds in a state. -/
def holds (s : State) (a : AtomId) : Bool := s.atoms.contains a

/-- Whether a literal is true in a state. -/
def satisfies (s : State) (l : Literal) : Bool := s.holds l.atom == l.value

/-- Whether an action is running: some entry of the `agenda` has its position. -/
def inFlight (s : State) (action : Nat) : Bool := s.agenda.toList.any (·.action == action)

end State

end DurativePlanning
