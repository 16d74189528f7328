import DurativePlanning.Proofs.ClosedWorld.Ground
import DurativePlanning.Proofs.Mdp.Combination
import Mathlib.Algebra.BigOperators.Group.Finset.Piecewise
import Mathlib.Data.Nat.Choose.Basic

/-!
# Counting Events and Combinations

How many events and how many combinations a ground problem has can be read off the instances of its
domain. An instance without extent is one event, and any other one is two. Of all pairs of
instances, those that need a common resource are in conflict, and every other pair is combined.
Where no instance needs more than one resource, the pairs in conflict are counted resource by
resource.

* `GroundProblem.Embodies.eventCount_add`: how many events a ground problem has.
* `conflicts`: the number of pairs in conflict.
* `length_compatiblePairs`: every pair is either combined or in conflict.
* `conflicts_eq_sum`: one resource at a time.
* `GroundProblem.Embodies.length_combine`: how many combinations a ground problem has.
* `ConvertedProblem.dropUncombinable_combine`: when none of them is dropped.
-/

namespace DurativePlanning

variable {α : Type}

/-! ### Events -/

/-- An action is one event when it takes no time, and two otherwise. -/
theorem GroundAction.length_events_convert (a : GroundAction α) :
    a.convert.events.length + (if a.duration = 0 then 1 else 0) = 2 := by
  rw [ConvertedAction.events, finish?_convert]
  split <;> simp

/-- **How many events a ground problem has**: `eventCount` is two for each instance, but one without
extent. -/
theorem GroundProblem.Embodies.eventCount_add {g : GroundProblem α} {d : Domain α}
    (h : g.Embodies d) :
    g.convert.eventCount + d.instances.countP (·.schema.duration = 0) = 2 * d.instances.length := by
  have hactions := h.actions
  rw [ConvertedProblem.eventCount, GroundProblem.convert, List.flatMap_map]
  generalize g.actions = actions, d.instances = xs at hactions ⊢
  induction hactions with
  | nil => rfl
  | @cons a x _ _ hfirst _ ih =>
      have hevents := a.length_events_convert
      rw [hfirst.instantiates.duration] at hevents
      rw [List.flatMap_cons, List.length_append, List.countP_cons, List.length_cons]
      simp only [decide_eq_true_eq]
      omega

/-! ### Conflicts -/

/-- The number of pairs of instances that need a common resource, which are those not
`compatible`. -/
def conflicts : List (Instance α) → ℕ
  | [] => 0
  | x :: rest => rest.countP (fun y => !x.compatible y) + conflicts rest

/-- **Every pair is combined or in conflict**, and not both: `compatiblePairs` and `conflicts` add
up to all pairs. -/
theorem length_compatiblePairs (xs : List (Instance α × ℕ)) :
    (compatiblePairs xs).length + conflicts (xs.map Prod.fst) = xs.length.choose 2 := by
  induction xs with
  | nil => rfl
  | cons x rest ih =>
      have hsplit := rest.length_eq_countP_add_countP fun y => x.1.compatible y.1
      rw [compatiblePairs, List.map_cons, conflicts, List.length_append, List.length_map,
        List.length_cons, Nat.choose_succ_succ' rest.length 1, Nat.choose_one_right, ← ih,
        ← List.countP_eq_length_filter, List.countP_map]
      simp only [Bool.not_eq_true, Bool.decide_eq_false] at hsplit
      simp only [Function.comp_def]
      omega

/-- The number of instances that need one resource and no others. -/
def users (f : GroundFluent) (xs : List (Instance α)) : ℕ :=
  xs.countP fun x => x.resources == [f]

/-- One more instance is one more user of the resource that it needs alone. -/
theorem users_cons (f : GroundFluent) (x : Instance α) (rest : List (Instance α)) :
    users f (x :: rest) = users f rest + if x.resources = [f] then 1 else 0 := by
  simp [users, List.countP_cons]

/-- **Conflicts are counted resource by resource** when each instance needs at most one: all `users`
of a resource are in conflict with each other, and with nobody else. -/
theorem conflicts_eq_sum {needed : Finset GroundFluent} {xs : List (Instance α)}
    (h : ∀ x ∈ xs, x.resources = [] ∨ ∃ f ∈ needed, x.resources = [f]) :
    conflicts xs = ∑ f ∈ needed, (users f xs).choose 2 := by
  induction xs with
  | nil => simp [conflicts, users]
  | cons x rest ih =>
      rw [List.forall_mem_cons] at h
      rw [conflicts, ih h.2]
      rcases h.1 with hnone | ⟨f₀, hf₀, hone⟩
      · have hfree : rest.countP (fun y => !x.compatible y) = 0 := by
          simp [Instance.compatible, hnone]
        simp [hfree, users_cons, hnone]
      · -- another user of the resource is in conflict with the first instance
        have hothers : rest.countP (fun y => !x.compatible y) = users f₀ rest := by
          refine List.countP_congr fun y hy => ?_
          rcases h.2 y hy with hy | ⟨f, -, hy⟩
          · simp [Instance.compatible, hone, hy]
          · simpa [Instance.compatible, hone, hy] using eq_comm
        have hgrown : ∀ f, (users f (x :: rest)).choose 2 =
            (if f = f₀ then users f rest else 0) + (users f rest).choose 2 := by
          intro f
          by_cases hf : f = f₀
          · subst hf
            rw [users_cons, if_pos hone, if_pos rfl, Nat.choose_succ_succ' _ 1,
              Nat.choose_one_right]
          · have hne : x.resources ≠ [f] := by
              rw [hone]
              simpa using Ne.symm hf
            rw [users_cons, if_neg hne, if_neg hf, Nat.add_zero, Nat.zero_add]
        simp only [hgrown, Finset.sum_add_distrib, Finset.sum_ite_eq', if_pos hf₀, hothers]

/-! ### Combinations -/

/-- **How many combinations a ground problem has**: all pairs of instances but those in conflict. -/
theorem GroundProblem.Embodies.length_combine {g : GroundProblem α} {d : Domain α}
    (h : g.Embodies d) :
    g.convert.combine.combinations.length + conflicts d.instances =
      d.instances.length.choose 2 := by
  have hpairs := congrArg List.length h.map_positions_combine
  rw [List.length_map, Domain.pairs] at hpairs
  have hall := length_compatiblePairs d.instances.zipIdx
  rwa [List.zipIdx_map_fst, List.length_zipIdx, ← hpairs] at hall

/-- `dropUncombinable` drops nothing when all actions may be combined. -/
theorem ConvertedProblem.dropUncombinable_combine {p : ConvertedProblem α}
    (h : ∀ a ∈ p.actions, a.combinable = true) : p.combine.dropUncombinable = p.combine := by
  have hkept : ∀ c ∈ p.combine.combinations, p.combine.mayCombine c = true := by
    intro c hc
    obtain ⟨i, j, a, b, -, ha, hb, -, -, -, rfl⟩ := (p.combines_combine.mem_iff c).mp hc
    have hsingles : p.combine.singles = p.actions := rfl
    simp [CombinationProblem.mayCombine, Combination.parts, joined, hsingles, ha, hb,
      h a (List.mem_of_getElem? ha), h b (List.mem_of_getElem? hb)]
  rw [CombinationProblem.dropUncombinable, List.filter_eq_self.mpr hkept]

end DurativePlanning
