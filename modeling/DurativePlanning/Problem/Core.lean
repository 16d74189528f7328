import DurativePlanning.Atom.Set
import DurativePlanning.Distribution
import DurativePlanning.Universe

/-!
# What All Stages of a Problem Share

Grounding, splitting and combining all speak of the same atoms, initial state, goals and deadline.

* `ProblemCore`: the shared part.
* `ProblemCore.describe`: an atom in words.
-/

namespace DurativePlanning

/-- The part of a problem that every stage of compilation keeps. -/
structure ProblemCore where
  name : String
  declarations : Universe
  atoms : AtomTable
  /-- The atoms that hold initially; every other ground fluent is false. -/
  initial : AtomSet
  goals : List Literal
  deadline : Nat
  deriving DecidableEq

namespace ProblemCore

/-- An atom in words (`Universe.describe`), or its number when the table does not have it. -/
def describe (core : ProblemCore) (a : AtomId) : String :=
  match core.atoms.fluent? a with
  | some f => core.declarations.describe f
  | none => (Reference.numbered a.index).text

/-- The same core with another deadline. -/
def withDeadline (core : ProblemCore) (deadline : Nat) : ProblemCore := { core with deadline }

end ProblemCore

end DurativePlanning
