import Mathlib.Logic.Basic

/-!
# Chains of Checks

Compilation and validation are chains of steps in `Except`, where the first failure ends the
chain. The first lemmas of this module take a chain apart, one that succeeded or one that failed.
The last one does the same for steps that pass a state on, such as the time read off a clock.

* `bind_eq_ok_iff`, `bind_eq_error_iff`: a chain of two steps succeeds when both do, and fails as
  the first of them that fails.
* `forM_eq_ok_iff`, `forM_eq_error_iff`: a check of each member of a list.
* `ite_some_eq_none_iff`: a list of tests that finds no fault.
* `run_bind`: the second step goes on in the state that the first one leaves.
-/

namespace DurativePlanning

variable {ε β γ : Type}

/-- `x >>= f` succeeds exactly when `x` gives a value from which `f` succeeds. -/
theorem bind_eq_ok_iff {x : Except ε β} {f : β → Except ε γ} {c : γ} :
    x >>= f = .ok c ↔ ∃ b, x = .ok b ∧ f b = .ok c := by
  cases x with
  | error e => simp [bind, Except.bind]
  | ok b => simp [bind, Except.bind]

/-- `x >>= f` fails as `x` does, or else as `f` does on the value of `x`. -/
theorem bind_eq_error_iff {x : Except ε β} {f : β → Except ε γ} {e : ε} :
    x >>= f = .error e ↔ x = .error e ∨ ∃ b, x = .ok b ∧ f b = .error e := by
  cases x with
  | error e' => simp [bind, Except.bind]
  | ok b => simp [bind, Except.bind]

/-- `List.forM` of a check succeeds exactly when the check succeeds on every member. -/
theorem forM_eq_ok_iff {f : β → Except ε Unit} {l : List β} :
    l.forM f = .ok () ↔ ∀ x ∈ l, f x = .ok () := by
  induction l with
  | nil => simp [pure, Except.pure]
  | cons x rest ih =>
      rw [List.forM_eq_forM] at *
      rw [List.forM_cons, bind_eq_ok_iff, List.forall_mem_cons, ih]
      exact ⟨fun ⟨_, hx, hrest⟩ => ⟨hx, hrest⟩, fun ⟨hx, hrest⟩ => ⟨(), hx, hrest⟩⟩

/-- `List.forM` of a check fails as the check does on the first member on which it fails. -/
theorem forM_eq_error_iff {f : β → Except ε Unit} {l : List β} {e : ε} :
    l.forM f = .error e ↔ ∃ before x after, l = before ++ x :: after ∧
      (∀ y ∈ before, f y = .ok ()) ∧ f x = .error e := by
  induction l with
  | nil => simp [pure, Except.pure]
  | cons x rest ih =>
      rw [List.forM_eq_forM] at *
      rw [List.forM_cons]
      cases hx : f x with
      | error e' =>
          constructor
          · rintro ⟨⟩
            exact ⟨[], x, rest, rfl, by simp, hx⟩
          · rintro ⟨_ | ⟨y, before⟩, z, after, hl, hbefore, hz⟩
            · obtain ⟨rfl, -⟩ := List.cons.inj hl
              exact hx.symm.trans hz
            · obtain ⟨rfl, -⟩ := List.cons.inj hl
              exact absurd (hx.symm.trans (hbefore x List.mem_cons_self)) (by simp)
      | ok value =>
          have hrest : (Except.ok value >>= fun _ => forM rest f) = forM rest f := rfl
          rw [hrest, ih]
          constructor
          · rintro ⟨before, z, after, rfl, hbefore, hz⟩
            exact ⟨x :: before, z, after, rfl, List.forall_mem_cons.mpr ⟨hx, hbefore⟩, hz⟩
          · rintro ⟨_ | ⟨y, before⟩, z, after, hl, hbefore, hz⟩
            · obtain ⟨rfl, -⟩ := List.cons.inj hl
              exact absurd (hx.symm.trans hz) (by simp)
            · obtain ⟨rfl, rfl⟩ := List.cons.inj hl
              exact ⟨before, z, after, rfl, (List.forall_mem_cons.mp hbefore).2, hz⟩

/-- No fault is found exactly when the first test finds none and those after it find none. -/
theorem ite_some_eq_none_iff {p : Prop} [Decidable p] {fault : β} {rest : Option β} :
    (if p then some fault else rest) = none ↔ ¬p ∧ rest = none := by
  split
  · next h => simp [h]
  · next h => simp [h]

/-- `(x >>= f).run state`: the second of two steps goes on in the state that the first one
leaves. -/
theorem run_bind {τ : Type} (x : StateM τ β) (f : β → StateM τ γ) (state : τ) :
    (x >>= f).run state = (f (x.run state).1).run (x.run state).2 := rfl

end DurativePlanning
