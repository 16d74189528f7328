import DurativePlanning.Proofs.ClosedWorld.Ground
import DurativePlanning.Proofs.Comparison

/-!
# Which Problems Are Read as Processes

Whether a problem is read as a process depends on its laws and on the discount. Names and numbers
are for messages only: a law that passes its check in one place passes it in every other. So the
laws of a ground problem can be checked in the schemas of its domain, with whatever arithmetic.

* `Law.Passes`: a law that passes the check.
* `Law.passes_of_check`: it does so in every place if it does in one.
* `Mdp.check_eq_ok`: a problem of such laws is accepted.
* `GroundProblem.Embodies.passes`: the laws of a ground problem are those of the schemas.
* `isUnit_double_iff`: which doubles are accepted as a discount.
-/

namespace DurativePlanning

section Laws

variable {α : Type} [Arithmetic α]

namespace Law

variable {action action' : String} {group group' : ℕ}

/-- `sumChecked` depends on the probabilities only, and not on the action and the group that its
errors name. -/
theorem sumChecked_congr {outcomes : List (Outcome α)} {sum total : α}
    (h : sumChecked action group sum outcomes = .ok total) :
    sumChecked action' group' sum outcomes = .ok total := by
  induction outcomes generalizing sum with
  | nil => exact h
  | cons o rest ih =>
      rw [sumChecked] at h ⊢
      split at h
      · next hprob =>
        rw [if_pos hprob]
        exact ih h
      · exact absurd h (by simp)

/-- A law **passes the check**, wherever it stands. -/
def Passes (law : Law α) : Prop :=
  ∀ (action : String) (group : ℕ), law.check action group tolerance = .ok ()

/-- **The check depends on the law only**, and not on where the law stands. -/
theorem passes_of_check {law : Law α} (h : law.check action group tolerance = .ok ()) :
    law.Passes := by
  intro action' group'
  rw [check, forM_eq_ok_iff] at h ⊢
  intro outcomes houtcomes
  obtain ⟨total, hsum, hnear⟩ := bind_eq_ok_iff.mp (h outcomes houtcomes)
  refine bind_eq_ok_iff.mpr ⟨total, sumChecked_congr hsum, ?_⟩
  split at hnear
  · exact absurd hnear (by simp)
  · next hoff => rw [if_neg hoff]; rfl

/-- A `check` that succeeds in any one place succeeds in all. -/
theorem passes_of_isOk {law : Law α} (h : (law.check action group tolerance).isOk = true) :
    law.Passes := by
  cases hcheck : law.check action group tolerance with
  | ok => exact passes_of_check hcheck
  | error e =>
      rw [hcheck] at h
      exact absurd h Bool.false_ne_true

end Law

/-- **A problem is accepted** by `Mdp.check` when its discount `isUnit` and all of its laws pass the
check. -/
theorem Mdp.check_eq_ok {actions : List (ConvertedAction α)} {discount : α}
    (hdiscount : Arithmetic.isUnit discount = true)
    (h : ∀ a ∈ actions, ∀ e ∈ a.events, ∀ g ∈ e.groups, g.law.Passes) :
    check actions discount = .ok () := by
  have hlaws : actions.forM checkLaws = .ok () := by
    refine forM_eq_ok_iff.mpr fun a ha => forM_eq_ok_iff.mpr fun e he => forM_eq_ok_iff.mpr ?_
    intro g hg
    exact h a ha e he g.1 (List.fst_mem_of_mem_zipIdx hg) a.name g.2
  rw [check, if_pos hdiscount, hlaws]

/-- **The laws of a ground problem** are those of the schemas, and pass the check if these do. -/
theorem GroundProblem.Embodies.passes {g : GroundProblem α} {d : Domain α} (h : g.Embodies d)
    (hlaws : ∀ s ∈ d.schemas, ∀ group ∈ s.groups, group.law.Passes) :
    ∀ a ∈ g.convert.actions, ∀ e ∈ a.events, ∀ group ∈ e.groups, group.law.Passes := by
  intro _ hconverted e he group hgroup
  obtain ⟨a, ha, rfl⟩ := List.mem_map.mp hconverted
  obtain ⟨x, hx, hembodies⟩ := exists_of_forall₂ h.actions ha
  have hmem : group ∈ a.groups := GroundAction.exists_event_iff.mp ⟨e, he, hgroup⟩
  obtain ⟨schemaGroup, hschema, -, hlaw, -⟩ :=
    exists_of_forall₂ hembodies.instantiates.groups.flip hmem
  exact hlaw ▸ hlaws x.schema (h.suits x hx).1 schemaGroup hschema

end Laws

/-- **Which doubles `Arithmetic.isUnit` accepts as a discount**: those between zero and one. -/
theorem isUnit_double_iff {x : Float} : Arithmetic.isUnit x = true ↔ 0 ≤ x ∧ x ≤ 1 := by
  have hunit : Arithmetic.isUnit x = (x.isFinite && decide (0 ≤ x) && decide (x ≤ 1)) := rfl
  rw [hunit, Bool.and_eq_true, Bool.and_eq_true, decide_eq_true_iff, decide_eq_true_iff, and_assoc]
  refine and_iff_right_of_imp fun ⟨hlow, hhigh⟩ => ?_
  obtain ⟨-, hdefined, hlow⟩ := le_double_iff.mp hlow
  obtain ⟨-, -, hhigh⟩ := le_double_iff.mp hhigh
  rw [isNaN_eq_false_iff] at hdefined
  change x.toModel.unpack.isFinite = true
  generalize x.toModel.unpack = parts at hlow hhigh hdefined ⊢
  -- what is not finite lies outside of all numbers
  rcases parts with (_ | _) | _ | _ | _
  · exact absurd hlow (by decide +kernel)
  · exact absurd hhigh (by decide +kernel)
  · exact absurd hdefined Bool.false_ne_true
  · rfl
  · rfl

end DurativePlanning
