import DurativePlanning.Domain.Validation
import DurativePlanning.Problem.Combination

/-!
# The Deadline of a Compiled Problem

Compilation carries the deadline of a domain along and reads it nowhere: which atoms are numbered,
which actions are ground and which pairs are combined does not depend on it. So it makes no
difference whether a domain gets its deadline before it is compiled, or its problems get theirs
afterwards.

* `Domain.build_withDeadline`: a domain is accepted whatever its deadline.
* `Domain.compileSplit_withDeadline`, `Domain.compileCombination_withDeadline`: compilation
  commutes with setting the deadline.
-/

namespace DurativePlanning.Domain

variable {α : Type}

/-- `build` does not look at the deadline. -/
theorem build_withDeadline (d : Domain α) (deadline : Nat) :
    (d.withDeadline deadline).build = (·.withDeadline deadline) <$> d.build := by
  simp only [build, map_bind, map_pure]
  rfl

/-- `groundSchemas` looks at schemas, declarations and tuples, which all deadlines share. -/
theorem groundSchemas_withDeadline (d : Domain α) (deadline : Nat) (schemas : List (Schema α))
    (next : Nat) (t : AtomTable) :
    (d.withDeadline deadline).groundSchemas next t schemas = d.groundSchemas next t schemas := by
  induction schemas generalizing next t with
  | nil => rfl
  | cons s rest ih =>
    have htuples : (d.withDeadline deadline).tuplesFor ⟨next⟩ s = d.tuplesFor ⟨next⟩ s := rfl
    rw [groundSchemas, groundSchemas, htuples]
    simp only [ih]
    rfl

/-- `ground` under another deadline is the ground problem with that deadline in its `core`. -/
theorem ground_withDeadline (d : Domain α) (deadline : Nat) :
    (d.withDeadline deadline).ground =
      (fun p : GroundProblem α => { p with core := p.core.withDeadline deadline }) <$>
        d.ground := by
  simp only [ground, groundSchemas_withDeadline, map_bind, map_pure]
  rfl

/-- `compileSplit` under another deadline is the problem with that deadline. -/
theorem compileSplit_withDeadline (d : Domain α) (deadline : Nat) :
    (d.withDeadline deadline).compileSplit = (·.withDeadline deadline) <$> d.compileSplit := by
  simp only [compileSplit, ground_withDeadline, map_bind, map_pure, bind_map_left]
  rfl

/-- `compileCombination` under another deadline is the bundle with that deadline on both
problems. -/
theorem compileCombination_withDeadline (d : Domain α) (deadline : Nat) :
    (d.withDeadline deadline).compileCombination =
      (·.withDeadline deadline) <$> d.compileCombination := by
  simp only [compileCombination, compileSplit_withDeadline, map_bind, map_pure, bind_map_left]
  rfl

end DurativePlanning.Domain
