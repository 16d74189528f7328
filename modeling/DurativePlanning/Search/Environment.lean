/-!
# The Environment of a Search

A search reaches its environment by three questions: how many actions a state offers, what comes of
taking one, and which action a rollout takes. The answers may depend on, and change, a hidden state
`σ`: they may be random, and they need not agree with each other.
-/

namespace DurativePlanning

/-- What comes of an action: the key of the next state, a reward, and whether all ends there. -/
structure Transition (α : Type) where
  next : Nat
  reward : α
  terminal : Bool

/-- The three questions that a search asks, each answered together with the next hidden state: how
many actions there are (`actionCount`), what comes of one (`step`), and what a rollout does
(`choose`). -/
structure Environment (σ α : Type) where
  actionCount : (state : Nat) → σ → Nat × σ
  step : (state action : Nat) → σ → Transition α × σ
  choose : (state available : Nat) → σ → Nat × σ

end DurativePlanning
