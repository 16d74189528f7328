import DurativePlanning.Mdp.Simulation
import DurativePlanning.Planner.Params
import DurativePlanning.Search.Iteration

/-!
# Decisions

A decision is made by a tree search over the numbers of states. Rewards are the goals newly reached,
as a fraction of all goals. A rollout looks at a few actions at random and takes the one that is
expected to reach the most goals at once.

* `Mdp.progress`, `Mdp.expectedProgress`: the reward of a step, and of an action on average.
* `Mdp.rolloutChoice`: the action that a rollout takes.
* `Mdp.environment`: the process as the environment of a search.
* `Mdp.decision`: the action with the most visits.
-/

namespace DurativePlanning

variable {α γ : Type}

namespace Mdp

section
variable [Arithmetic α]

/-- The fraction of the goals that hold after a step and did not hold before it; zero once the
process has failed, or when `goalCount` is zero. -/
def progress (m : Mdp α) (before after : State) : α :=
  if m.goalCount = 0 || after.isFailed then 0
  else
    let gained := m.core.goals.countP fun g => !before.satisfies g && after.satisfies g
    Arithmetic.ofNat gained / Arithmetic.ofNat m.goalCount

/-- The `progress` of an action, weighted by the probabilities of its `transitions`. -/
def expectedProgress (m : Mdp α) (s : State) (action : Nat) : α :=
  ((m.transitions s action).map fun (p, next) => p * m.progress s next).foldl (· + ·) 0

/-- The score of the candidate at a position among the decisions that can be taken: its
`expectedProgress`. -/
def candidateScore (m : Mdp α) (s : State) (applicable : List Nat) (candidate : Nat) : α :=
  match applicable[candidate]? with
  | some action => m.expectedProgress s action
  | none => 0

/-- The better one of the best candidate so far and a further one; the first of equals. -/
def betterOf (best : Option (Nat × α)) (candidate : Nat) (score : α) : Nat × α :=
  match best with
  | some (kept, top) => if score ≤ top then (kept, top) else (candidate, score)
  | none => (candidate, score)

variable [WordSource γ]

/-- The best of `draws` candidates more. The candidates before position `drawn` of the pool were
drawn already; the next one is swapped to that position from a random place at or after it. -/
def bestOfDraws (score : Nat → α) :
    (draws drawn : Nat) → (pool : Array Nat) → Option (Nat × α) → γ → Option (Nat × α) × γ
  | 0, _, _, best, source => (best, source)
  | draws + 1, drawn, pool, best, source =>
    let (offset, source) := pick α source (pool.size - drawn)
    let pool := pool.swapIfInBounds drawn (drawn + offset)
    let candidate := pool.getD drawn 0
    bestOfDraws score draws (drawn + 1) pool (some (betterOf best candidate (score candidate)))
      source

/-- The best of up to `k` different candidates below `count`, drawn at random. -/
def rolloutChoice (m : Mdp α) (s : State) (count k : Nat) (source : γ) : Nat × γ :=
  let applicable := m.applicable s
  let (best, source) := bestOfDraws (m.candidateScore s applicable) (min k count) 0
    (Array.range count) none source
  ((best.map Prod.fst).getD 0, source)

/-- The process as the environment of a search. States are referred to by their numbers in a
`StateTable`; what is asked of a number or a position that does not exist ends at once, without
reward. -/
def environment (m : Mdp α) (k : Nat) : Environment (StateTable × γ) α where
  actionCount key hidden :=
    match hidden.1.get? key with
    | some s => (if m.isTerminal s then 0 else (m.applicable s).length, hidden)
    | none => (0, hidden)
  step key position hidden :=
    match hidden.1.get? key with
    | none => (⟨key, 0, true⟩, hidden)
    | some s =>
      match (m.applicable s)[position]? with
      | none => (⟨key, 0, true⟩, hidden)
      | some action =>
        let (next, source) := m.draw s action hidden.2
        let (number, table) := hidden.1.intern next
        (⟨number, m.progress s next, m.isTerminal next⟩, (table, source))
  choose key count hidden :=
    match hidden.1.get? key with
    | none => (0, hidden)
    | some s =>
      let (position, source) := m.rolloutChoice s count k hidden.2
      (position, (hidden.1, source))

end

variable [SearchArithmetic α] [WordSource γ] {n : Type → Type} [Monad n]

/-- The root action with the most visits (`Tree.bestByVisits`), as a decision; the `first` one when
there is none. -/
def chosen (t : Tree α) (first : Nat) (applicable : List Nat) : Except TreeError Nat := do
  let best ← t.bestByVisits
  return (best.bind (applicable[·]?)).getD first

/-- The decision taken in a state, out of those that can be taken, which are `first` and `others`. A
single one is taken without a search. -/
def decision (m : Mdp α) (clock : n Nat) (config : SearchConfig α) (k : Nat) (s : State)
    (first : Nat) (others : List Nat) (source : γ) : n (Except PlanError Nat × γ) := do
  if others.isEmpty then return (.ok first, source)
  let (key, table) := (Numbering.empty : StateTable).intern s
  let (result, t, hidden) ← Tree.run clock (.ofRoot key false) (m.environment k) config
    (table, source)
  match result with
  | .error cause => return (.error (.ofSearch cause), hidden.2)
  | .ok _ =>
    match chosen t first (first :: others) with
    | .error cause => return (.error (.search cause), hidden.2)
    | .ok action => return (.ok action, hidden.2)

end Mdp

end DurativePlanning
