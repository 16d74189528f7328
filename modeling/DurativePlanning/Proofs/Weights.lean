import DurativePlanning.Proofs.Exact
import DurativePlanning.Proofs.Mdp.Event
import Mathlib.LinearAlgebra.Finsupp.LinearCombination

/-!
# Weighted Results

A probabilistic program is read as the weights that it gives to its results. `Weights K β` holds
finitely many values, each with a weight, and does not know of any order or of repeated entries.
It is a monad, so that a sequence of random choices can be written as a sequence of steps. The
weighted lists that the transition system computes with are mapped into it by `Weights.ofList`.

* `Weights.prob`: the weight of one value.
* `Weights.bind_comm`: steps that do not depend on each other may be taken in any order.
* `Weights.ofList_flatMap`: one more random step after a weighted list.
* `Weights.ofList_collect`: taking equal results together keeps the weights.
* `Weights.prob_ofList_of_mem`: in a list without repetitions each entry holds the weight itself.
-/

namespace DurativePlanning

/-- Finitely many values, each with a **weight**. -/
def Weights (K : Type) [Semiring K] (β : Type) : Type := β →₀ K

namespace Weights

variable {K : Type} [Semiring K] {β γ : Type}

noncomputable instance : AddCommMonoid (Weights K β) := inferInstanceAs (AddCommMonoid (β →₀ K))

noncomputable instance : Module K (Weights K β) := inferInstanceAs (Module K (β →₀ K))

/-- The weight of one value. -/
def prob (w : Weights K β) (x : β) : K := Finsupp.toFun w x

/-- Weights are determined by `prob` of each value. -/
@[ext] theorem ext {v w : Weights K β} (h : ∀ x, v.prob x = w.prob x) : v = w := Finsupp.ext h

/-- A sure value has weight one; a random step after weighted values gives to each result the sum
over all values of the weight of the value times the weight of the result after it. -/
noncomputable instance : Monad (Weights K) where
  pure x := Finsupp.single x 1
  bind {_ γ} w f := Finsupp.linearCombination K (M := γ →₀ K) f w

/-! ### Linearity -/

@[simp] theorem prob_zero (x : β) : (0 : Weights K β).prob x = 0 := rfl

/-- `prob` is additive. -/
@[simp] theorem prob_add (v w : Weights K β) (x : β) : (v + w).prob x = v.prob x + w.prob x := rfl

/-- Scaling by `p` scales each weight. -/
@[simp] theorem prob_smul (p : K) (w : Weights K β) (x : β) : (p • w).prob x = p * w.prob x := rfl

theorem prob_pure [DecidableEq β] (x y : β) :
    (pure x : Weights K β).prob y = if x = y then 1 else 0 :=
  Finsupp.single_apply

@[simp] theorem zero_bind (f : β → Weights K γ) : (0 : Weights K β) >>= f = 0 :=
  map_zero (Finsupp.linearCombination K (M := γ →₀ K) f)

@[simp] theorem add_bind (v w : Weights K β) (f : β → Weights K γ) :
    (v + w) >>= f = (v >>= f) + (w >>= f) :=
  map_add (Finsupp.linearCombination K (M := γ →₀ K) f) v w

@[simp] theorem smul_bind (p : K) (w : Weights K β) (f : β → Weights K γ) :
    (p • w) >>= f = p • (w >>= f) :=
  map_smul (Finsupp.linearCombination K (M := γ →₀ K) f) p w

/-- Weights are built from `0` by adding sure values, each with a scaling. -/
theorem induction_on {P : Weights K β → Prop} (w : Weights K β) (zero : P 0)
    (add : ∀ (x : β) (p : K) (v : Weights K β), P v → P (p • pure x + v)) : P w := by
  refine Finsupp.induction w zero fun x p v _ _ hv => ?_
  have hsingle : (Finsupp.single x p : β →₀ K) = p • Finsupp.single x 1 := by simp
  rw [hsingle]
  exact add x p v hv

theorem sure_bind (x : β) (f : β → Weights K γ) : (pure x : Weights K β) >>= f = f x :=
  (Finsupp.linearCombination_single K (M := γ →₀ K) 1 x).trans (one_smul K (f x))

instance : LawfulMonad (Weights K) :=
  LawfulMonad.mk' (Weights K)
    (fun w => by
      change w >>= pure = w
      induction w using induction_on with
      | zero => rfl
      | add x p v hv => rw [add_bind, smul_bind, sure_bind, hv])
    (fun x f => sure_bind x f)
    (fun w f g => by
      induction w using induction_on with
      | zero => rfl
      | add x p v hv => simp only [add_bind, smul_bind, sure_bind, hv])

@[simp] theorem bind_zero (w : Weights K β) : (w >>= fun _ => (0 : Weights K γ)) = 0 := by
  induction w using induction_on with
  | zero => exact zero_bind _
  | add x p v hv => rw [add_bind, smul_bind, sure_bind, smul_zero, hv, add_zero]

/-- What comes after a random step may be added up before or after it. -/
theorem bind_add (w : Weights K β) (f g : β → Weights K γ) :
    (w >>= fun x => f x + g x) = (w >>= f) + (w >>= g) := by
  induction w using induction_on with
  | zero => simp only [zero_bind, add_zero]
  | add x p v hv => simp only [add_bind, smul_bind, sure_bind, hv, smul_add, add_add_add_comm]

/-- A value that has weight after a function on the values is a value of the function. -/
theorem exists_of_prob_map_ne_zero {w : Weights K β} {g : β → γ} {y : γ}
    (h : (g <$> w).prob y ≠ 0) : ∃ x, g x = y := by
  classical
  induction w using induction_on with
  | zero => exact absurd rfl h
  | add x p v hv =>
      by_cases hx : g x = y
      · exact ⟨x, hx⟩
      · refine hv ?_
        rwa [← bind_pure_comp, add_bind, smul_bind, sure_bind, prob_add, prob_smul, prob_pure,
          if_neg hx, mul_zero, zero_add, bind_pure_comp] at h

/-- **Independent random steps** may be taken in any order, over numbers of a `CommSemiring`. -/
theorem bind_comm {K : Type} [CommSemiring K] {β γ δ : Type} (v : Weights K β) (w : Weights K γ)
    (f : β → γ → Weights K δ) :
    (v >>= fun x => w >>= f x) = w >>= fun y => v >>= fun x => f x y := by
  have bind_smul : ∀ (p : K) (x : β), (w >>= fun y => p • f x y) = p • (w >>= f x) := by
    intro p x
    induction w using induction_on with
    | zero => simp only [zero_bind, smul_zero]
    | add y q u hu => simp only [add_bind, smul_bind, sure_bind, hu, smul_add, smul_comm q p]
  induction v using induction_on with
  | zero => simp only [zero_bind, bind_zero]
  | add x p v hv => simp only [add_bind, smul_bind, sure_bind, hv, bind_add, bind_smul]

/-! ### Weighted lists -/

/-- The weights of a list: entries of the same value are added up. -/
noncomputable def ofList (l : List (K × β)) : Weights K β := (l.map fun x => x.1 • pure x.2).sum

@[simp] theorem ofList_nil : ofList ([] : List (K × β)) = 0 := rfl

@[simp] theorem ofList_cons (p : K) (x : β) (l : List (K × β)) :
    ofList ((p, x) :: l) = p • pure x + ofList l := by
  simp [ofList]

@[simp] theorem ofList_append (l r : List (K × β)) : ofList (l ++ r) = ofList l + ofList r := by
  simp [ofList]

theorem ofList_singleton (x : β) : ofList [((1 : K), x)] = pure x := by simp

/-- A function on the values acts on the entries: `ofList` commutes with `<$>`. -/
theorem ofList_map (l : List (K × β)) (g : β → γ) :
    ofList (l.map fun x => (x.1, g x.2)) = g <$> ofList l := by
  induction l with
  | nil => rfl
  | cons x rest ih =>
      obtain ⟨p, x⟩ := x
      rw [List.map_cons, ofList_cons, ofList_cons, ih, ← bind_pure_comp, ← bind_pure_comp,
        add_bind, smul_bind, sure_bind]

/-- All entries scaled by one number. -/
theorem ofList_scale (p : K) (l : List (K × β)) :
    ofList (l.map fun x => (p * x.1, x.2)) = p • ofList l := by
  induction l with
  | nil => simp
  | cons x rest ih =>
      obtain ⟨q, x⟩ := x
      rw [List.map_cons, ofList_cons, ofList_cons, ih, smul_add, mul_smul]

/-- **One more random step** after a weighted list, with the weights multiplied: `ofList` turns
`flatMap` into `>>=`. -/
theorem ofList_flatMap (l : List (K × β)) (f : β → List (K × γ)) :
    ofList (l.flatMap fun x => (f x.2).map fun y => (x.1 * y.1, y.2)) =
      ofList l >>= fun x => ofList (f x) := by
  induction l with
  | nil => rfl
  | cons x rest ih =>
      obtain ⟨p, x⟩ := x
      rw [List.flatMap_cons, ofList_append, ofList_scale, ih, ofList_cons, add_bind, smul_bind,
        sure_bind]

/-- Steps that agree on the values of a list may take each other's place after it. -/
theorem ofList_bind_congr {l : List (K × β)} {f g : β → Weights K γ}
    (h : ∀ x ∈ l.map Prod.snd, f x = g x) : ofList l >>= f = ofList l >>= g := by
  induction l with
  | nil => rfl
  | cons x rest ih =>
      obtain ⟨p, x⟩ := x
      rw [List.map_cons, List.forall_mem_cons] at h
      simp only [ofList_cons, add_bind, smul_bind, sure_bind, h.1, ih h.2]

/-- `prob` in a list is the sum over the entries that hold the value. -/
theorem prob_ofList [DecidableEq β] (l : List (K × β)) (x : β) :
    (ofList l).prob x = ((l.filter fun y => y.2 = x).map Prod.fst).sum := by
  induction l with
  | nil => rfl
  | cons y rest ih =>
      obtain ⟨p, y⟩ := y
      rw [ofList_cons, prob_add, prob_smul, prob_pure, ih]
      by_cases h : y = x <;> simp [h]

/-- A value without an entry has no weight. -/
theorem prob_ofList_of_notMem {l : List (K × β)} {x : β} (h : x ∉ l.map Prod.snd) :
    (ofList l).prob x = 0 := by
  classical
  have hempty : l.filter (fun y => y.2 = x) = [] := by
    rw [List.filter_eq_nil_iff]
    rintro ⟨p, y⟩ hy he
    exact h (List.mem_map.mpr ⟨_, hy, by simpa using he⟩)
  rw [prob_ofList, hempty]
  rfl

/-- In a list without repetitions an entry holds the `prob` of its value. -/
theorem prob_ofList_of_mem {l : List (K × β)} (hnodup : (l.map Prod.snd).Nodup) {p : K} {x : β}
    (h : (p, x) ∈ l) : (ofList l).prob x = p := by
  classical
  induction l with
  | nil => simp at h
  | cons y rest ih =>
      obtain ⟨q, y⟩ := y
      rw [List.map_cons, List.nodup_cons] at hnodup
      rw [ofList_cons, prob_add, prob_smul, prob_pure]
      rcases List.mem_cons.mp h with he | hrest
      · obtain ⟨rfl, rfl⟩ := Prod.mk.inj he
        simp [prob_ofList_of_notMem hnodup.1]
      · have hxy : y ≠ x := fun e => hnodup.1 (e ▸ List.mem_map.mpr ⟨_, hrest, rfl⟩)
        simp [hxy, ih hnodup.2 hrest]

/-! ### Lists of an exact arithmetic -/

section Exact

variable {K : Type} [Field K] [LinearOrder K] {β : Type}

/-- `ofList` does not change when entries without weight are dropped. -/
theorem ofList_filter_pos {l : List (K × β)} (h : ∀ x ∈ l, 0 ≤ x.1) :
    ofList (l.filter fun x => decide (0 < x.1)) = ofList l := by
  induction l with
  | nil => rfl
  | cons x rest ih =>
      obtain ⟨p, x⟩ := x
      rw [List.forall_mem_cons] at h
      rcases h.1.lt_or_eq with hp | hp
      · rw [List.filter_cons_of_pos (by simpa using hp), ofList_cons, ofList_cons, ih h.2]
      · obtain rfl : 0 = p := hp
        rw [List.filter_cons_of_neg (by simp), ofList_cons, ih h.2, zero_smul, zero_add]

variable [IsStrictOrderedRing K] [FloorSemiring K]

/-- `addWeight` adds the weight to that of the value. -/
theorem ofList_addWeight [DecidableEq β] (p : K) (x : β) (l : List (K × β)) :
    ofList (addWeight p x l) = ofList l + p • pure x := by
  induction l with
  | nil => simp [addWeight]
  | cons y rest ih =>
      obtain ⟨q, y⟩ := y
      rw [addWeight]
      by_cases h : y = x
      · subst h
        rw [if_pos rfl, ofList_cons, ofList_cons, add_smul, add_right_comm]
      · rw [if_neg h, ofList_cons, ofList_cons, ih, add_assoc]

/-- **Collecting keeps the weights**: `collect` only adds up entries of equal values. -/
theorem ofList_collect [DecidableEq β] (l : List (K × β)) : ofList (collect l) = ofList l := by
  induction l using List.reverseRecOn with
  | nil => rfl
  | append_singleton l y ih =>
      obtain ⟨p, y⟩ := y
      rw [collect_concat, ofList_addWeight, ih, ofList_append, ofList_cons, ofList_nil, add_zero]

end Exact

end Weights

end DurativePlanning
