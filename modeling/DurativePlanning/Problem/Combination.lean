import DurativePlanning.Problem.Converted

/-!
# Combinations

Two actions that need no common resource may run side by side. A combination problem lists all such
pairs next to the single actions.

* `ConvertedProblem.combine`: every pair without a common resource, in order.
* `CombinationProblem.dropUncombinable`: only pairs whose two parts may be combined.
* `Domain.compileSplit`, `Domain.compileCombination`: from a domain to its problems.
-/

namespace DurativePlanning

/-- Two actions, by position among the `singles`, that start in the same step. -/
structure Combination where
  name : String
  first : Nat
  second : Nat
  resources : AtomSet
  deriving DecidableEq

/-- The positions of the two parts. -/
def Combination.parts (c : Combination) : List Nat := [c.first, c.second]

/-- A problem whose actions run to completion, alone or in pairs. -/
structure CombinationProblem (α : Type) where
  core : ProblemCore
  singles : List (ConvertedAction α)
  combinations : List Combination
  deriving BEq

variable {α : Type}

namespace CombinationProblem

/-- The same problem with another deadline. -/
def withDeadline (p : CombinationProblem α) (deadline : Nat) : CombinationProblem α :=
  { p with core := p.core.withDeadline deadline }

/-- The number of single actions and combinations. -/
def actionCount (p : CombinationProblem α) : Nat := p.singles.length + p.combinations.length

/-- Whether both `parts` of a combination are there and may be combined. -/
def mayCombine (p : CombinationProblem α) (c : Combination) : Bool :=
  c.parts.all fun i => (p.singles[i]?).any (·.combinable)

/-- The problem without the combinations that have a part which may not be combined
(`mayCombine`). -/
def dropUncombinable (p : CombinationProblem α) : CombinationProblem α :=
  { p with combinations := p.combinations.filter p.mayCombine }

end CombinationProblem

/-- The combination of two actions at given positions, unless they need a common resource
(`AtomSet.disjoint`). -/
def combinePair (first second : ConvertedAction α × Nat) : Option Combination :=
  if first.1.resources.disjoint second.1.resources then
    some ⟨first.1.name ++ "|" ++ second.1.name, first.2, second.2,
      first.1.resources.union second.1.resources⟩
  else none

/-- What `combinePair` makes of two members of a list, the earlier one first. -/
def combinePairs : List (ConvertedAction α × Nat) → List Combination
  | [] => []
  | first :: rest => rest.filterMap (combinePair first) ++ combinePairs rest

/-- The problem with a combination for every two actions that need no common resource
(`combinePairs`). -/
def ConvertedProblem.combine (p : ConvertedProblem α) : CombinationProblem α :=
  ⟨p.core, p.actions, combinePairs p.actions.zipIdx⟩

/-- The two problems that are compiled, and stored, together. -/
structure Bundle (α : Type) where
  combination : CombinationProblem α
  split : ConvertedProblem α
  deriving BEq

/-- Both problems with another deadline. -/
def Bundle.withDeadline (b : Bundle α) (deadline : Nat) : Bundle α :=
  ⟨b.combination.withDeadline deadline, b.split.withDeadline deadline⟩

namespace Domain

/-- The converted problem of a domain: `ground`, and then `convert`. -/
def compileSplit (d : Domain α) : Except ModelError (ConvertedProblem α) := do
  let ground ← d.ground
  return ground.convert

/-- Both problems of a domain: the one of `compileSplit`, and its combinations without those that
`dropUncombinable` takes away. -/
def compileCombination (d : Domain α) : Except ModelError (Bundle α) := do
  let split ← d.compileSplit
  return ⟨split.combine.dropUncombinable, split⟩

end Domain

end DurativePlanning
