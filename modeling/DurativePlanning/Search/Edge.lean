import DurativePlanning.Search.Config

/-!
# Edges of a Search Tree

An edge stands for taking an action in a node. It counts the returns that were backed up through it,
keeps their sum and the greatest of them, and lists the successors that were met.

* `EdgeStats.record`: one more return.
* `Edge.score`: how promising an edge is, or that it was never tried.
* `Score.beats`: which of two scores a selection prefers.
-/

namespace DurativePlanning

/-- What is known of the returns that were backed up through an edge. -/
structure EdgeStats (α : Type) where
  visits : Nat
  total : α
  /-- The greatest return, if some return lies above minus infinity. -/
  greatest : Option α

/-- A successor of an edge, by the state's key: its node, and how often it was met. -/
structure OutcomeEntry where
  key : Nat
  child : Nat
  count : Nat
  deriving DecidableEq, Repr

/-- Taking an action in a node. -/
structure Edge (α : Type) where
  action : Nat
  stats : EdgeStats α
  /-- The successors met so far, in the order in which they were first met. -/
  outcomes : List OutcomeEntry

/-- How promising an edge is. -/
inductive Score (α : Type) where
  /-- Nothing is known yet; such an edge is tried first. -/
  | untried
  | value (x : α)

variable {α : Type} [SearchArithmetic α]

namespace EdgeStats

/-- No returns yet. -/
def empty : EdgeStats α := ⟨0, 0, none⟩

/-- The greater one of a maximum so far and a further return, which only counts if it is
`aboveAllBounds`. -/
def raise (greatest : Option α) (x : α) : Option α :=
  match greatest with
  | none => if SearchArithmetic.aboveAllBounds x then some x else none
  | some y => if y < x then some x else some y

/-- One more return: one more visit, added to `total`, and compared with `greatest` (`raise`). -/
def record (s : EdgeStats α) (x : α) : EdgeStats α :=
  ⟨s.visits + 1, s.total + x, raise s.greatest x⟩

/-- The mean of the returns, zero without any: `total` over `visits`. -/
def q (s : EdgeStats α) : α :=
  if s.visits = 0 then 0 else s.total / Arithmetic.ofNat s.visits

/-- The greatest return, zero without any, and `lowest` if none lies above minus infinity. -/
def best (s : EdgeStats α) : α :=
  if s.visits = 0 then 0 else s.greatest.getD SearchArithmetic.lowest

/-- The value that a selection goes by: `q` or `best`. -/
def value (s : EdgeStats α) : Selection → α
  | .avg => s.q
  | .max => s.best

end EdgeStats

namespace Score

/-- Whether a score is preferred to the best score so far. A value that is undefined is never
preferred. -/
def beats : Score α → Option (Score α) → Bool
  | untried, none => true
  | untried, some untried => false
  | untried, some (value y) => SearchArithmetic.belowAllBounds y
  | value x, none => SearchArithmetic.aboveAllBounds x
  | value _, some untried => false
  | value x, some (value y) => decide (y < x)

end Score

namespace Edge

/-- An edge through which nothing was backed up yet. -/
def ofAction (action : Nat) : Edge α := ⟨action, .empty, []⟩

/-- An edge after one more return (`EdgeStats.record`). -/
def record (e : Edge α) (x : α) : Edge α := { e with stats := e.stats.record x }

/-- The upper confidence bound of an edge whose node was left `parentVisits` times: the value of the
edge and, weighted by `c`, a term that grows while the edge is not taken. -/
def score (e : Edge α) (parentVisits : Nat) (c : α) (selection : Selection) : Score α :=
  if e.stats.visits = 0 then .untried else
  let spread := SearchArithmetic.sqrt
    (SearchArithmetic.ln (Arithmetic.ofNat parentVisits) / Arithmetic.ofNat e.stats.visits)
  .value (e.stats.value selection + c * spread)

/-- The entry of a successor. -/
def outcome? (e : Edge α) (key : Nat) : Option OutcomeEntry := e.outcomes.find? (·.key == key)

/-- An edge whose entry of a successor was met once more: its `count` is one greater. -/
def meet (e : Edge α) (key : Nat) : Edge α :=
  { e with outcomes := e.outcomes.map fun o =>
      if o.key = key then { o with count := o.count + 1 } else o }

/-- An edge with a successor that was met for the first time, unless `outcome?` finds an entry
already. -/
def enter? (e : Edge α) (key child : Nat) : Option (Edge α) :=
  if (e.outcome? key).isSome then none
  else some { e with outcomes := e.outcomes ++ [⟨key, child, 1⟩] }

end Edge

end DurativePlanning
