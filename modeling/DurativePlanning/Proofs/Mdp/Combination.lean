import DurativePlanning.Proofs.Mdp.Built
import DurativePlanning.Proofs.Mdp.Step
import Mathlib.Data.List.Sort

/-!
# Which Actions Are Combined

Combining goes through all pairs of positions, and leaves out those whose actions need a common
resource; a filter leaves out those with a part that may not be combined. What results is the list
of all pairs that are left, in order, and a process reads its entries just as two actions on their
own that it takes up at the same time.

* `Combines`: all combinations of some actions, each once, in lexicographic order.
* `Combines.unique`: there is one such list.
* `ConvertedProblem.combines_combine`, `Combines.dropUncombinable`: combining makes it, without the
  filter and with it.
* `Mdp.isApplicable_combined`, `Mdp.cost_combined`: a combination as a decision.
* `ConvertedProblem.combinations_exact`: all of it.
-/

namespace DurativePlanning

variable {α : Type}

/-! ### All pairs in order -/

/-- The combination of two actions at given positions: its name joins theirs by a bar, and its
resources are the union. -/
def joined (i j : ℕ) (a b : ConvertedAction α) : Combination :=
  ⟨a.name ++ "|" ++ b.name, i, j, a.resources.union b.resources⟩

/-- One combination **precedes** another one when its first part comes earlier, or the same first
part has a second part that comes earlier. -/
def Combination.Precedes (c d : Combination) : Prop :=
  c.first < d.first ∨ c.first = d.first ∧ c.second < d.second

instance : Std.Irrefl Combination.Precedes :=
  ⟨fun _ h => h.elim (Nat.lt_irrefl _) fun h => Nat.lt_irrefl _ h.2⟩

instance : Std.Antisymm Combination.Precedes :=
  ⟨fun c d h h' => by simp only [Combination.Precedes] at h h'; omega⟩

/-- A list **combines** some actions when it holds the combination of every two of them that share
no resource and may both be combined, and no others, each one once, in lexicographic order of their
positions. -/
structure Combines (actions : List (ConvertedAction α)) (may : ConvertedAction α → Prop)
    (combinations : List Combination) : Prop where
  mem_iff : ∀ c, c ∈ combinations ↔ ∃ i j a b, i < j ∧ actions[i]? = some a ∧
    actions[j]? = some b ∧ (∀ x ∈ a.resources, x ∉ b.resources) ∧ may a ∧ may b ∧
      c = joined i j a b
  ascending : combinations.Pairwise Combination.Precedes

section Pairs

variable {actions : List (ConvertedAction α)} {may : ConvertedAction α → Prop}
  {combinations combinations' : List Combination} {c : Combination}

/-- **There is only one list** that `Combines` some actions: two lists with the same members that
ascend by `Precedes` are equal. -/
theorem Combines.unique (h : Combines actions may combinations)
    (h' : Combines actions may combinations') : combinations = combinations' :=
  h.ascending.eq_of_mem_iff h'.ascending fun c => (h.mem_iff c).trans (h'.mem_iff c).symm

/-- `combinePair` makes a combination of two actions exactly when they share no resource, and then
it is `joined`. -/
theorem combinePair_eq_some_iff {x y : ConvertedAction α × ℕ} :
    combinePair x y = some c ↔
      (∀ r ∈ x.1.resources, r ∉ y.1.resources) ∧ c = joined x.2 y.2 x.1 y.1 := by
  rw [combinePair]
  split
  · next hapart =>
    rw [and_iff_right (AtomSet.disjoint_iff.mp hapart), Option.some.injEq, eq_comm]
    rfl
  · next hshared => simpa using fun hapart => absurd (AtomSet.disjoint_iff.mpr hapart) hshared

variable {l : List (ConvertedAction α × ℕ)}

/-- **Which combinations are made** by `combinePairs` of some actions in order: `combinePair` of any
two, the earlier one first. -/
theorem mem_combinePairs (h : l.Pairwise fun x y => x.2 < y.2) :
    c ∈ combinePairs l ↔ ∃ x ∈ l, ∃ y ∈ l, x.2 < y.2 ∧ combinePair x y = some c := by
  induction l with
  | nil => simp [combinePairs]
  | cons first rest ih =>
      rw [List.pairwise_cons] at h
      rw [combinePairs, List.mem_append, List.mem_filterMap, ih h.2]
      constructor
      · rintro (⟨y, hy, hc⟩ | ⟨x, hx, y, hy, hlt, hc⟩)
        · exact ⟨first, List.mem_cons_self, y, List.mem_cons_of_mem _ hy, h.1 y hy, hc⟩
        · exact ⟨x, List.mem_cons_of_mem _ hx, y, List.mem_cons_of_mem _ hy, hlt, hc⟩
      · rintro ⟨x, hx, y, hy, hlt, hc⟩
        rcases List.mem_cons.mp hx with rfl | hx' <;> rcases List.mem_cons.mp hy with rfl | hy'
        · exact absurd hlt (Nat.lt_irrefl _)
        · exact Or.inl ⟨y, hy', hc⟩
        · exact absurd hlt (Nat.lt_asymm (h.1 x hx'))
        · exact Or.inr ⟨x, hx', y, hy', hlt, hc⟩

/-- **In which order** they are made: `combinePairs` lists them by `Combination.Precedes`. -/
theorem pairwise_combinePairs (h : l.Pairwise fun x y => x.2 < y.2) :
    (combinePairs l).Pairwise Combination.Precedes := by
  induction l with
  | nil => exact .nil
  | cons first rest ih =>
      rw [List.pairwise_cons] at h
      rw [combinePairs, List.pairwise_append]
      refine ⟨?_, ih h.2, fun c hc d hd => ?_⟩
      · rw [List.pairwise_filterMap]
        refine h.2.imp fun {x y} hlt c hc d hd => ?_
        obtain ⟨-, rfl⟩ := combinePair_eq_some_iff.mp hc
        obtain ⟨-, rfl⟩ := combinePair_eq_some_iff.mp hd
        exact Or.inr ⟨rfl, hlt⟩
      · obtain ⟨y, -, hc⟩ := List.mem_filterMap.mp hc
        obtain ⟨x, hx, z, -, -, hd⟩ := (mem_combinePairs h.2).mp hd
        obtain ⟨-, rfl⟩ := combinePair_eq_some_iff.mp hc
        obtain ⟨-, rfl⟩ := combinePair_eq_some_iff.mp hd
        exact Or.inl (h.1 x hx)

/-- `List.zipIdx` numbers actions in ascending order. -/
theorem pairwise_zipIdx (actions : List (ConvertedAction α)) :
    actions.zipIdx.Pairwise fun x y => x.2 < y.2 := by
  rw [← List.pairwise_map, List.zipIdx_map_snd]
  exact List.pairwise_lt_range'

/-- **Combining**: `ConvertedProblem.combine` makes the combinations of all actions. -/
theorem ConvertedProblem.combines_combine (p : ConvertedProblem α) :
    Combines p.actions (fun _ => True) p.combine.combinations where
  mem_iff c := by
    rw [combine, mem_combinePairs (pairwise_zipIdx p.actions)]
    constructor
    · rintro ⟨⟨a, i⟩, hi, ⟨b, j⟩, hj, hlt, hc⟩
      obtain ⟨hapart, hc⟩ := combinePair_eq_some_iff.mp hc
      exact ⟨i, j, a, b, hlt, List.mem_zipIdx_iff_getElem?.mp hi,
        List.mem_zipIdx_iff_getElem?.mp hj, hapart, trivial, trivial, hc⟩
    · rintro ⟨i, j, a, b, hlt, ha, hb, hapart, -, -, hc⟩
      exact ⟨(a, i), List.mem_zipIdx_iff_getElem?.mpr ha, (b, j),
        List.mem_zipIdx_iff_getElem?.mpr hb, hlt, combinePair_eq_some_iff.mpr ⟨hapart, hc⟩⟩
  ascending := pairwise_combinePairs (pairwise_zipIdx p.actions)

/-- **The filter** `dropUncombinable` leaves the combinations of those actions that are
`combinable`. -/
theorem Combines.dropUncombinable {q : CombinationProblem α}
    (h : Combines q.singles (fun _ => True) q.combinations) :
    Combines q.singles (fun a => a.combinable = true) q.dropUncombinable.combinations where
  mem_iff c := by
    rw [CombinationProblem.dropUncombinable, List.mem_filter, h.mem_iff]
    constructor
    · rintro ⟨⟨i, j, a, b, hlt, ha, hb, hapart, -, -, rfl⟩, hmay⟩
      obtain ⟨hmay, hmay'⟩ : a.combinable = true ∧ b.combinable = true := by
        simpa [CombinationProblem.mayCombine, Combination.parts, joined, ha, hb] using hmay
      exact ⟨i, j, a, b, hlt, ha, hb, hapart, hmay, hmay', rfl⟩
    · rintro ⟨i, j, a, b, hlt, ha, hb, hapart, hmay, hmay', rfl⟩
      refine ⟨⟨i, j, a, b, hlt, ha, hb, hapart, trivial, trivial, rfl⟩, ?_⟩
      simp [CombinationProblem.mayCombine, Combination.parts, joined, ha, hb, hmay, hmay']
  ascending := h.ascending.filter _

/-- `dropUncombinable` is idempotent. -/
theorem CombinationProblem.dropUncombinable_idem (q : CombinationProblem α) :
    q.dropUncombinable.dropUncombinable = q.dropUncombinable := by
  have hmay : q.dropUncombinable.mayCombine = q.mayCombine := rfl
  rw [dropUncombinable, hmay]
  simp [dropUncombinable, List.filter_filter]

end Pairs

/-! ### Combinations as decisions -/

namespace Mdp

variable [Arithmetic α] {q : CombinationProblem α} {discount : α} {m : Mdp α} {j : ℕ}
  {c : Combination}

/-- The decisions after those for the single actions are the combinations: `kind?` at
`q.singles.length + j` is `combined j`. -/
theorem kind?_combined (hm : ofCombination q discount = .ok m)
    (hc : q.combinations[j]? = some c) :
    m.kind? (q.singles.length + j) = some (.combined j) := by
  have hj : j < q.combinations.length := (List.getElem?_eq_some_iff.mp hc).1
  rw [kind?_ofCombination hm, if_neg (by omega), if_pos (by omega), Nat.add_sub_cancel_left]

/-- **A combination is taken up** when both of its parts can be, each on its own, in the same
state. -/
theorem isApplicable_combined (hm : ofCombination q discount = .ok m)
    (hc : q.combinations[j]? = some c) (hfirst : c.first < q.singles.length)
    (hsecond : c.second < q.singles.length) (s : State) :
    m.isApplicable s (q.singles.length + j) =
      (m.isApplicable s c.first && m.isApplicable s c.second) := by
  have hc' : m.combinations[j]? = some c := by
    obtain ⟨-, rfl⟩ := ofCombination_eq_ok_iff.mp hm
    exact List.getElem?_toArray.trans hc
  rw [isApplicable, isApplicable, isApplicable, kind?_combined hm hc, kind?_ofCombination hm,
    if_pos hfirst, kind?_ofCombination hm, if_pos hsecond]
  simp only [Option.any_some, admits, hc', Combination.parts, List.all_cons, List.all_nil,
    Bool.and_true]
  cases s.isFailed <;> rfl

/-- **A combination takes** as long as the longer one of its parts, by `ConvertedAction.span`. -/
theorem cost_combined {a b : ConvertedAction α} (hm : ofCombination q discount = .ok m)
    (hc : q.combinations[j]? = some c) (ha : q.singles[c.first]? = some a)
    (hb : q.singles[c.second]? = some b) : m.cost (.combined j) = max a.span b.span := by
  obtain ⟨-, rfl⟩ := ofCombination_eq_ok_iff.mp hm
  simp [cost, partsOf, combinationProcess, Combination.parts, hc, ha, hb]

end Mdp

/-- **Combining is complete, sound and ordered.** It keeps what actions have in common and the
actions themselves. It lists the combinations of all two actions that share no resource, each once
and in lexicographic order of their positions, under both names and with the resources of both;
after the filter, those that are left are the ones of which both actions may be combined. A second
filter drops nothing. In a process that is built with or without the filter, each combination is a
decision after those for the single actions; it can be taken in just those states in which both
parts can be taken on their own, and it takes as long as the longer one of them. -/
theorem ConvertedProblem.combinations_exact [Arithmetic α] (p : ConvertedProblem α) :
    (p.combine.core = p.core ∧ p.combine.singles = p.actions ∧
      Combines p.actions (fun _ => True) p.combine.combinations) ∧
    (p.combine.dropUncombinable.core = p.core ∧ p.combine.dropUncombinable.singles = p.actions ∧
      Combines p.actions (fun a => a.combinable = true)
        p.combine.dropUncombinable.combinations) ∧
    (∀ q : CombinationProblem α, q.dropUncombinable.dropUncombinable = q.dropUncombinable) ∧
    ∀ q, q = p.combine ∨ q = p.combine.dropUncombinable →
      ∀ discount m, Mdp.ofCombination q discount = .ok m →
        ∀ j c, q.combinations[j]? = some c →
          ∃ a b, p.actions[c.first]? = some a ∧ p.actions[c.second]? = some b ∧
            m.kind? c.first = some (.single c.first) ∧
            m.kind? c.second = some (.single c.second) ∧
            m.kind? (p.actions.length + j) = some (.combined j) ∧
            (∀ s, m.isApplicable s (p.actions.length + j) =
              (m.isApplicable s c.first && m.isApplicable s c.second)) ∧
            m.cost (.combined j) = max a.span b.span := by
  have hall := p.combines_combine
  have hleft : Combines p.actions (fun a => a.combinable = true)
      p.combine.dropUncombinable.combinations :=
    Combines.dropUncombinable (q := p.combine) hall
  refine ⟨⟨rfl, rfl, hall⟩, ⟨rfl, rfl, hleft⟩, fun q => q.dropUncombinable_idem, ?_⟩
  intro q hq discount m hm j c hc
  obtain ⟨hsingles, may, hcombines⟩ :
      q.singles = p.actions ∧ ∃ may, Combines p.actions may q.combinations := by
    rcases hq with rfl | rfl
    · exact ⟨rfl, _, hall⟩
    · exact ⟨rfl, _, hleft⟩
  obtain ⟨i, k, a, b, -, ha, hb, -, -, -, rfl⟩ := (hcombines.mem_iff c).mp (List.mem_of_getElem? hc)
  have hfirst : i < p.actions.length := (List.getElem?_eq_some_iff.mp ha).1
  have hsecond : k < p.actions.length := (List.getElem?_eq_some_iff.mp hb).1
  rw [← hsingles] at ha hb hfirst hsecond ⊢
  exact ⟨a, b, ha, hb, (Mdp.kind?_ofCombination hm i).trans (if_pos hfirst),
    (Mdp.kind?_ofCombination hm k).trans (if_pos hsecond), Mdp.kind?_combined hm hc,
    Mdp.isApplicable_combined hm hc hfirst hsecond, Mdp.cost_combined hm hc ha hb⟩

/-- A task that takes some ticks and needs some hands. -/
def task (name : String) (ticks : ℕ) (hands : List AtomId) (combinable : Bool) :
    ConvertedAction Float where
  course := .split ⟨name, ⟨name ++ "@start", [], [], []⟩, ⟨name ++ "@end", [], [], []⟩, ticks⟩
  resources := .ofList hands
  combinable := combinable

/-- Chores for two hands, one of which takes both of them, and a pause. -/
def chores : ConvertedProblem Float :=
  ⟨⟨"chores", {}, .empty, .empty, [], 9⟩,
    [task "stir" 4 [⟨0⟩] true, task "salt" 1 [⟨1⟩] true, task "carry" 2 [⟨0⟩, ⟨1⟩] true,
      task "pause" 3 [] false]⟩

/-- Stirring goes with salting, which takes four ticks. Everything goes with a pause, until that is
dropped. -/
theorem ConvertedProblem.combinations_exact_chores :
    let m := Mdp.combinationProcess chores.combine.dropUncombinable 1
    chores.combine.combinations.map (·.name) =
      ["stir|salt", "stir|pause", "salt|pause", "carry|pause"] ∧
    Combines chores.actions (fun a => a.combinable = true)
      chores.combine.dropUncombinable.combinations ∧
    Mdp.ofCombination chores.combine.dropUncombinable 1 = .ok m ∧
    chores.combine.dropUncombinable.combinations[0]? =
      some ⟨"stir|salt", 0, 1, .ofList [⟨0⟩, ⟨1⟩]⟩ ∧
    (∀ s, m.isApplicable s 4 = (m.isApplicable s 0 && m.isApplicable s 1)) ∧
    m.cost (.combined 0) = 4 := by
  intro m
  have hm : Mdp.ofCombination chores.combine.dropUncombinable 1 = .ok m := rfl
  have hc : chores.combine.dropUncombinable.combinations[0]? =
      some ⟨"stir|salt", 0, 1, .ofList [⟨0⟩, ⟨1⟩]⟩ := by decide
  obtain ⟨-, ⟨-, -, hleft⟩, -, hbuilt⟩ := chores.combinations_exact
  obtain ⟨a, b, ha, hb, -, -, -, happlicable, hcost⟩ := hbuilt _ (Or.inr rfl) 1 m hm 0 _ hc
  obtain rfl := Option.some.inj ha
  obtain rfl := Option.some.inj hb
  exact ⟨by decide, hleft, hm, hc, happlicable, hcost⟩

end DurativePlanning
