import DurativePlanning.Atom.Table
import DurativePlanning.Law

/-!
# Distributions over Assignments

Once the parameters of a group are bound, a law gives a finite distribution whose outcomes are lists
of literals to be assigned in order.

* `EffectGroup.distribution`: the distribution of one group in a state.
* `Distribution.product`: the joint distribution of two independent groups.
-/

namespace DurativePlanning

variable {α : Type}

/-- Weighted lists of literals, in a fixed order. -/
structure Distribution (α : Type) where
  outcomes : List (α × List Literal)
  deriving BEq, Repr

namespace Distribution

variable [Arithmetic α]

/-- The distribution with one outcome, of probability `1`, which assigns nothing. -/
def certain : Distribution α := ⟨[(1, [])]⟩

/-- The outcomes that have positive weight; those of weight zero are left out of every `product`. -/
def ofOutcomes (outcomes : List (α × List Literal)) : Distribution α :=
  ⟨outcomes.filter fun o => decide (0 < o.1)⟩

/-- The sum of the weights. -/
def total (d : Distribution α) : α := (d.outcomes.map Prod.fst).foldl (· + ·) 0

/-- The joint distribution of two independent draws: weights are multiplied, and the assignments of
`e` come after those of `d`. -/
def product (d e : Distribution α) : Distribution α :=
  ⟨d.outcomes.flatMap fun (p, left) => e.outcomes.map fun (q, right) => (p * q, left ++ right)⟩

end Distribution

/-- A group of atoms whose values are drawn together: the law, and the objects (`bindings`) that
stand for the parameters which its conditions mention. -/
structure EffectGroup (α : Type) where
  targets : List AtomId
  law : Law α
  bindings : List ObjectId
  deriving BEq, Repr

namespace EffectGroup

/-- The literals that an outcome assigns; a target that is not among the `targets` is passed
over. -/
def literals (g : EffectGroup α) (o : Outcome α) : List Literal :=
  o.assign.filterMap fun (target, value) => g.targets[target]?.map (⟨·, value⟩)

/-- The distribution of the group in a state, which is given by what `holds` in it: the outcomes
that `Law.select` picks. -/
def distribution [Arithmetic α] (g : EffectGroup α) (holds : GroundFluent → Bool) :
    Distribution α :=
  .ofOutcomes ((g.law.select holds g.bindings).map fun o => (o.prob, g.literals o))

end EffectGroup

end DurativePlanning
