import DurativePlanning.Mdp.Basic
import DurativePlanning.Numbering
import DurativePlanning.Random.Draw

/-!
# Simulation

A simulation takes decisions and lets a source of words choose the successors. A search refers to
the states that it meets by number.

* `Mdp.draw`: one decision with a random successor.
* `Mdp.walk`: several decisions, chosen at random.
* `StateTable`: the numbers of the states met so far.
-/

namespace DurativePlanning

instance : Hashable AtomSet := ⟨fun s => hash s.toList⟩

instance : Hashable InFlight := ⟨fun e => mixHash (hash e.ticksLeft) (hash e.action)⟩

instance : Hashable State where
  hash
    | .failed => 7
    | .running atoms remaining agenda =>
      mixHash (hash atoms) (mixHash (hash remaining) (hash agenda.toList))

/-- States by number, as a `Numbering`: the search knows states by these numbers only. -/
abbrev StateTable := Numbering State

variable {α γ : Type} [Arithmetic α] [WordSource γ]

/-- A random successor of a decision: `Mdp.sample` with the next number of the `source`. -/
def Mdp.draw (m : Mdp α) (s : State) (action : Nat) (source : γ) : State × γ :=
  let (u, source) := uniform (α := α) source
  (m.sample s action u, source)

/-- Up to `n` decisions, each picked at random among the applicable ones, with the states that they
lead to. The walk ends early where nothing is applicable. -/
def Mdp.walk (m : Mdp α) : (n : Nat) → State → γ → List (Nat × State) × State × γ
  | 0, s, source => ([], s, source)
  | n + 1, s, source =>
    match m.applicable s with
    | [] => ([], s, source)
    | first :: others =>
      let (i, source) := pick α source (others.length + 1)
      let action := (first :: others).getD i first
      let (t, source) := m.draw s action source
      let (steps, last, source) := walk m n t source
      ((action, t) :: steps, last, source)

end DurativePlanning
