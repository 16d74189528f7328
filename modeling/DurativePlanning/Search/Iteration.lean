import DurativePlanning.Search.Descent
import DurativePlanning.Search.Rollout

/-!
# Iterations and Runs

An iteration descends to a leaf, estimates by a rollout what can be earned from there, and adds the
whole return to every edge of the path. A run repeats that until its iterations or its time are used
up. Time is read off a clock, which is the only thing outside the search that a run looks at.

* `Tree.iterate`: one iteration.
* `Tree.run`: one run, with what each of its iterations did.
-/

namespace DurativePlanning

/-- What an iteration did. -/
structure Iteration (α : Type) where
  leaf : Nat
  pathLength : Nat
  /-- The rewards on the way to the leaf. -/
  rewardBefore : α
  /-- The return of the rollout. -/
  rolloutReturn : α
  /-- Both together, as added to the edges of the path. -/
  totalReturn : α

/-- What a run did. -/
structure RunMetrics (α : Type) where
  requested : Nat
  completed : Nat
  /-- The sum of the returns of all iterations. -/
  sum : α
  /-- Their mean, zero without iterations. -/
  average : α
  stoppedByTime : Bool

variable {σ α : Type} [SearchArithmetic α]

namespace Tree

/-- The estimate for a leaf: a terminal one earns nothing more, and any other one gets a
`rollout`. -/
def estimate (env : Environment σ α) (config : SearchConfig α) (leaf : Node α) (s : σ) :
    Except TreeError α × σ :=
  if leaf.terminal then (.ok 0, s)
  else rollout env (config.rolloutParams leaf.depth) leaf.key s

/-- One iteration: `descend`, `estimate`, and back up. The tree keeps what the descent changed even
when the iteration fails. -/
def iterate (t : Tree α) (env : Environment σ α) (config : SearchConfig α) (s : σ) :
    Except TreeError (Iteration α) × Tree α × σ :=
  match t.descend env config.c config.selection config.maxDepth s with
  | (.error cause, t, s) => (.error cause, t, s)
  | (.ok d, t, s) =>
    match t.node? d.leaf with
    | none => (.error (.missingNode d.leaf), t, s)
    | some leaf =>
      match estimate env config leaf s with
      | (.error cause, s) => (.error cause, t, s)
      | (.ok estimated, s) =>
        let total := d.reward + estimated
        match t.backpropagate total d.path with
        | (.error cause, t) => (.error cause, t, s)
        | (.ok (), t) => (.ok ⟨d.leaf, d.path.length, d.reward, estimated, total⟩, t, s)

/-- Up to `n` iterations, of which only the last one may fail. -/
def iterations (env : Environment σ α) (config : SearchConfig α) :
    (n : Nat) → Tree α → σ → List (Except TreeError (Iteration α)) × Tree α × σ
  | 0, t, s => ([], t, s)
  | n + 1, t, s =>
    match t.iterate env config s with
    | (.error cause, t, s) => ([.error cause], t, s)
    | (.ok i, t, s) =>
      let (log, t, s) := iterations env config n t s
      (.ok i :: log, t, s)

end Tree

namespace RunMetrics

/-- Nothing was done yet. -/
def start (requested : Nat) : RunMetrics α := ⟨requested, 0, 0, 0, false⟩

/-- One more iteration, in the counts, the sum and the mean. -/
def record (m : RunMetrics α) (i : Iteration α) : RunMetrics α :=
  let completed := m.completed + 1
  let sum := m.sum + i.totalReturn
  { m with completed, sum, average := sum / Arithmetic.ofNat completed }

end RunMetrics

/-- Whether a time budget is used up after some nanoseconds; a budget that `nanosecondsOf?` cannot
convert is an error. -/
def outOfTime (budget : Option Float) (elapsed : Nat) : Except SearchError Bool :=
  match budget with
  | none => .ok false
  | some seconds =>
    match nanosecondsOf? seconds with
    | none => .error (.unusableTime seconds)
    | some limit => .ok (decide (limit ≤ elapsed))

namespace Tree

variable {m : Type → Type} [Monad m]

/-- Up to `left` iterations more, begun while there is time. `log` lists the iterations before, the
last one first. -/
def runFrom (clock : m Nat) (began : Nat) (env : Environment σ α) (config : SearchConfig α) :
    (left : Nat) → RunMetrics α → (log : List (Iteration α)) → Tree α → σ →
      m (Except SearchError (RunMetrics α × List (Iteration α)) × Tree α × σ)
  | 0, metrics, log, t, s => return (.ok (metrics, log.reverse), t, s)
  | left + 1, metrics, log, t, s => do
    let now ← clock
    match outOfTime config.timeBudget (now - began) with
    | .error cause => return (.error cause, t, s)
    | .ok true => return (.ok ({ metrics with stoppedByTime := true }, log.reverse), t, s)
    | .ok false =>
      match t.iterate env config s with
      | (.error cause, t, s) => return (.error (.tree cause), t, s)
      | (.ok i, t, s) => runFrom clock began env config left (metrics.record i) (i :: log) t s

/-- A run: the iterations of a search, with their totals. -/
def run (clock : m Nat) (t : Tree α) (env : Environment σ α) (config : SearchConfig α) (s : σ) :
    m (Except SearchError (RunMetrics α × List (Iteration α)) × Tree α × σ) := do
  let began ← clock
  runFrom clock began env config config.iterations (.start config.iterations) [] t s

end Tree

end DurativePlanning
