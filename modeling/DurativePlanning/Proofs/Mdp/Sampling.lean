import DurativePlanning.Proofs.Mdp.Mass
import Mathlib.Order.Interval.Set.Defs

/-!
# Sampling

A random number picks a successor by its place among the cumulative probabilities: the first
successor whose cumulative probability reaches the number. The cumulative probabilities ascend, since
only successors of positive probability are listed, and so the numbers that pick a successor are an
interval that is as long as the successor is probable. It is the same to look the number up by
halving.

* `cumulative`, `FallsTo`: sums of weights, and the numbers that fall between two of them.
* `exists_pickAt_eq`: which entry a number picks.
* `partitionPoint`, `Mdp.sampleByHalving`: the look-up by halving.
* `Mdp.sample_intervals`: sampling realises the distribution of the successors.
-/

namespace DurativePlanning

variable {K β : Type} [Field K] [LinearOrder K]

/-! ### Cumulative weights -/

/-- The **cumulative weight** of the first `k` entries of a weighted list. -/
def cumulative (l : List (K × β)) (k : ℕ) : K := ((l.take k).map Prod.fst).sum

/-- A number **falls to** the entry at a position: it lies above the weights before the entry and
not above those up to it. Zero falls to the first entry, and what lies above all weights falls to
the last one. -/
def FallsTo (l : List (K × β)) (u : K) (k : ℕ) : Prop :=
  (cumulative l k < u ∧ u ≤ cumulative l (k + 1)) ∨ (k = 0 ∧ u = 0) ∨
    (k + 1 = l.length ∧ cumulative l (k + 1) < u)

omit [LinearOrder K] in
@[simp] theorem cumulative_zero (l : List (K × β)) : cumulative l 0 = 0 := rfl

omit [LinearOrder K] in
@[simp] theorem cumulative_cons_succ (x : K × β) (l : List (K × β)) (k : ℕ) :
    cumulative (x :: l) (k + 1) = x.1 + cumulative l k := by
  simp [cumulative]

omit [LinearOrder K] in
/-- The sum up to an entry adds its weight to the sum before it. -/
theorem cumulative_succ {l : List (K × β)} {k : ℕ} {x : K × β} (hx : l[k]? = some x) :
    cumulative l (k + 1) = cumulative l k + x.1 := by
  rw [cumulative, List.take_add_one, hx]
  simp [cumulative]

omit [LinearOrder K] in
theorem cumulative_length (l : List (K × β)) : cumulative l l.length = (l.map Prod.fst).sum := by
  rw [cumulative, List.take_length]

variable [IsStrictOrderedRing K]

/-- `cumulative` **ascends** when no weight is negative. -/
theorem cumulative_mono {l : List (K × β)} (hl : ∀ x ∈ l, 0 ≤ x.1) {j k : ℕ} (hjk : j ≤ k) :
    cumulative l j ≤ cumulative l k := by
  obtain ⟨d, rfl⟩ := Nat.exists_eq_add_of_le hjk
  rw [cumulative, cumulative, List.take_add, List.map_append, List.sum_append]
  refine le_add_of_nonneg_right (List.sum_nonneg fun p hp => ?_)
  obtain ⟨x, hx, rfl⟩ := List.mem_map.mp hp
  exact hl x (List.mem_of_mem_drop (List.mem_of_mem_take hx))

/-- Where a number falls, said by the entries before and the entry itself. -/
theorem fallsTo_iff {l : List (K × β)} (hl : ∀ x ∈ l, 0 < x.1) {k : ℕ} (hk : k < l.length) {u : K}
    (hu : 0 ≤ u) :
    FallsTo l u k ↔ (∀ j < k, cumulative l (j + 1) < u) ∧
      (k + 1 < l.length → u ≤ cumulative l (k + 1)) := by
  have hmono : ∀ {i j : ℕ}, i ≤ j → cumulative l i ≤ cumulative l j :=
    cumulative_mono fun x hx => (hl x hx).le
  constructor
  · rintro (⟨hlow, hhigh⟩ | ⟨rfl, rfl⟩ | ⟨hlast, hlow⟩)
    · exact ⟨fun j hj => (hmono hj).trans_lt hlow, fun _ => hhigh⟩
    · refine ⟨fun j hj => absurd hj (Nat.not_lt_zero j), fun _ => ?_⟩
      exact (cumulative_zero l).symm.trans_le (hmono (Nat.zero_le _))
    · refine ⟨fun j hj => (hmono (by omega)).trans_lt hlow, fun h => ?_⟩
      exact absurd hlast (Nat.ne_of_lt h)
  · rintro ⟨hbefore, hreached⟩
    by_cases hhigh : u ≤ cumulative l (k + 1)
    · cases k with
      | zero =>
          rcases hu.lt_or_eq with hpos | hzero
          · exact Or.inl ⟨hpos, hhigh⟩
          · exact Or.inr (Or.inl ⟨rfl, hzero.symm⟩)
      | succ k => exact Or.inl ⟨hbefore k (Nat.lt_succ_self k), hhigh⟩
    · refine Or.inr (Or.inr ⟨?_, not_le.mp hhigh⟩)
      by_contra hlast
      exact hhigh (hreached (by omega))

/-! ### The entry that a number picks -/

section Pick

variable [FloorSemiring K]

/-- **The entry that `pickAt` picks**: all sums before it stay below the number, and its own sum
reaches the number unless it is the last entry. -/
theorem exists_pickAt_eq {l : List (K × β)} (hne : l ≠ []) (u sum : K) :
    ∃ k x, l[k]? = some x ∧ Mdp.pickAt u sum l = some x.2 ∧
      (∀ j < k, sum + cumulative l (j + 1) < u) ∧
      (k + 1 < l.length → u ≤ sum + cumulative l (k + 1)) := by
  induction l generalizing sum with
  | nil => exact absurd rfl hne
  | cons x rest ih =>
      obtain ⟨p, x⟩ := x
      rw [Mdp.pickAt]
      by_cases hlow : sum + p < u
      · rw [if_pos hlow]
        cases hrest : rest with
        | nil => exact ⟨0, (p, x), rfl, rfl, fun j hj => absurd hj (Nat.not_lt_zero j), by simp⟩
        | cons y rest' =>
            obtain ⟨k, z, hz, hpick, hbefore, hreached⟩ := ih (by simp [hrest]) (sum + p)
            rw [← hrest, hpick]
            refine ⟨k + 1, z, hz, rfl, fun j hj => ?_, fun h => ?_⟩
            · cases j with
              | zero => simpa using hlow
              | succ j =>
                  rw [cumulative_cons_succ, ← add_assoc]
                  exact hbefore j (Nat.lt_of_succ_lt_succ hj)
            · rw [cumulative_cons_succ, ← add_assoc]
              exact hreached (Nat.lt_of_succ_lt_succ h)
      · rw [if_neg hlow]
        refine ⟨0, (p, x), rfl, rfl, fun j hj => absurd hj (Nat.not_lt_zero j), fun _ => ?_⟩
        simpa using not_lt.mp hlow

/-- **`pickAt` picks the entry to which the number falls**, and it falls to one. -/
theorem exists_fallsTo {l : List (K × β)} (hne : l ≠ []) (hl : ∀ x ∈ l, 0 < x.1) {u : K}
    (hu : 0 ≤ u) :
    ∃ k x, l[k]? = some x ∧ Mdp.pickAt u 0 l = some x.2 ∧ FallsTo l u k := by
  obtain ⟨k, x, hx, hpick, hbefore, hreached⟩ := exists_pickAt_eq hne u 0
  simp only [zero_add] at hbefore hreached
  exact ⟨k, x, hx, hpick,
    (fallsTo_iff hl (List.getElem?_eq_some_iff.mp hx).1 hu).mpr ⟨hbefore, hreached⟩⟩

end Pick

/-- A number `FallsTo` one entry only. -/
theorem FallsTo.unique {l : List (K × β)} (hl : ∀ x ∈ l, 0 < x.1) {u : K} (hu : 0 ≤ u) {j k : ℕ}
    (hj : j < l.length) (hk : k < l.length) (h : FallsTo l u j) (h' : FallsTo l u k) : j = k := by
  -- the sum up to the earlier one of two entries would reach the number and stay below it
  have hle : ∀ {i i' : ℕ}, i < l.length → i' < l.length → FallsTo l u i → FallsTo l u i' →
      ¬i < i' := by
    intro i i' hi hi' hfalls hfalls' hlt
    obtain ⟨-, hreached⟩ := (fallsTo_iff hl hi hu).mp hfalls
    obtain ⟨hbefore, -⟩ := (fallsTo_iff hl hi' hu).mp hfalls'
    exact not_lt.mpr (hreached (by omega)) (hbefore i hlt)
  exact Nat.le_antisymm (Nat.not_lt.mp (hle hk hj h' h)) (Nat.not_lt.mp (hle hj hk h h'))

/-- **The numbers that fall to an entry** of weights that add up to one are an interval that is as
long as the entry is heavy: `Set.Icc` for the first entry and `Set.Ioc` for the others. -/
theorem setOf_fallsTo {l : List (K × β)} (hl : ∀ x ∈ l, 0 < x.1) (hsum : (l.map Prod.fst).sum = 1)
    {k : ℕ} {x : K × β} (hx : l[k]? = some x) :
    {u | 0 ≤ u ∧ u ≤ 1 ∧ FallsTo l u k} =
      if k = 0 then Set.Icc 0 x.1 else Set.Ioc (cumulative l k) (cumulative l k + x.1) := by
  have hk : k < l.length := (List.getElem?_eq_some_iff.mp hx).1
  have hmono : ∀ {i j : ℕ}, i ≤ j → cumulative l i ≤ cumulative l j :=
    cumulative_mono fun x hx => (hl x hx).le
  have hnext := cumulative_succ hx
  have hone : cumulative l l.length = 1 := (cumulative_length l).trans hsum
  have hle : cumulative l (k + 1) ≤ 1 := (hmono hk).trans_eq hone
  -- no number is left for the last entry above the sum of all
  have hlast : ∀ {u : K}, u ≤ 1 → ¬(k + 1 = l.length ∧ cumulative l (k + 1) < u) := by
    rintro u hu ⟨hlength, hlt⟩
    rw [hlength, hone] at hlt
    exact not_lt.mpr hu hlt
  ext u
  by_cases hzero : k = 0
  · subst hzero
    have hfirst : cumulative l (0 + 1) = x.1 := by rw [hnext, cumulative_zero, zero_add]
    rw [if_pos rfl, ← hfirst]
    constructor
    · rintro ⟨hu, hu1, ⟨-, hhigh⟩ | ⟨-, rfl⟩ | h⟩
      · exact ⟨hu, hhigh⟩
      · exact ⟨le_rfl, (hl x (List.mem_of_getElem? hx)).le.trans_eq hfirst.symm⟩
      · exact absurd h (hlast hu1)
    · rintro ⟨hu, hhigh⟩
      refine ⟨hu, hhigh.trans hle, ?_⟩
      rcases hu.lt_or_eq with hpos | hu0
      · exact Or.inl ⟨hpos, hhigh⟩
      · exact Or.inr (Or.inl ⟨rfl, hu0.symm⟩)
  · rw [if_neg hzero, ← hnext]
    constructor
    · rintro ⟨-, hu1, hin | ⟨h, -⟩ | h⟩
      · exact hin
      · exact absurd h hzero
      · exact absurd h (hlast hu1)
    · rintro ⟨hlow, hhigh⟩
      have hpos : 0 ≤ cumulative l k := (cumulative_zero l).symm.trans_le (hmono (Nat.zero_le k))
      exact ⟨hpos.trans hlow.le, hhigh.trans hle, Or.inl ⟨hlow, hhigh⟩⟩

/-! ### Halving -/

/-- **Halving**: from `low` on, the position at which a test that holds at first begins to fail, or
`high` if it does not fail before. -/
def partitionPoint (test : ℕ → Bool) (low high : ℕ) : ℕ :=
  if low < high then
    if test ((low + high) / 2) then partitionPoint test ((low + high) / 2 + 1) high
    else partitionPoint test low ((low + high) / 2)
  else low
termination_by high - low
decreasing_by all_goals omega

/-- `partitionPoint` finds the position up to which a test holds and from which on it fails, by the
recursion of the halving. -/
theorem partitionPoint_eq {test : ℕ → Bool} {low high k : ℕ} (hlow : low ≤ k) (hhigh : k ≤ high)
    (hbefore : ∀ j < k, test j = true) (hfrom : ∀ j, k ≤ j → j < high → test j = false) :
    partitionPoint test low high = k := by
  fun_induction partitionPoint test low high with
  | case1 low high hlt hmiddle ih =>
      -- the test holds in the middle, so it fails only after it
      have hk : (low + high) / 2 < k := by
        by_contra hle
        have hfails := hfrom _ (Nat.not_lt.mp hle) (by omega)
        rw [hmiddle] at hfails
        exact absurd hfails (by simp)
      exact ih hk hhigh hfrom
  | case2 low high hlt hmiddle ih =>
      have hk : k ≤ (low + high) / 2 := by
        by_contra hgt
        exact hmiddle (hbefore _ (Nat.not_le.mp hgt))
      exact ih hlow hk fun j hj hjm => hfrom j hj (by omega)
  | case3 low high hge => omega

/-- `partitionPoint` over the cumulative weights finds the entry to which a number falls. -/
theorem partitionPoint_of_fallsTo {l : List (K × β)} (hl : ∀ x ∈ l, 0 < x.1) {u : K} (hu : 0 ≤ u)
    {k : ℕ} (hk : k < l.length) (h : FallsTo l u k) :
    min (partitionPoint (fun k => decide (cumulative l (k + 1) < u)) 0 l.length) (l.length - 1) =
      k := by
  obtain ⟨hbefore, hreached⟩ := (fallsTo_iff hl hk hu).mp h
  have hbelow : ∀ j < k, decide (cumulative l (j + 1) < u) = true :=
    fun j hj => decide_eq_true (hbefore j hj)
  by_cases hhigh : u ≤ cumulative l (k + 1)
  · have habove : ∀ j, k ≤ j → j < l.length → decide (cumulative l (j + 1) < u) = false := by
      intro j hj _
      refine decide_eq_false (not_lt.mpr (hhigh.trans ?_))
      exact cumulative_mono (fun x hx => (hl x hx).le) (Nat.succ_le_succ hj)
    rw [partitionPoint_eq (Nat.zero_le k) hk.le hbelow habove]
    omega
  · -- the number lies above all sums, so that halving ends behind the last entry
    have hlast : k + 1 = l.length := by
      by_contra hne
      exact hhigh (hreached (by omega))
    have hall : ∀ j < l.length, decide (cumulative l (j + 1) < u) = true := by
      intro j hj
      rcases Nat.lt_or_ge j k with hjk | hjk
      · exact hbelow j hjk
      · obtain rfl : j = k := by omega
        exact decide_eq_true (not_le.mp hhigh)
    rw [partitionPoint_eq (Nat.zero_le _) le_rfl hall fun j hj hj' => absurd hj' (by omega)]
    omega

/-! ### Successors -/

namespace Mdp

variable [FloorSemiring K] {m : Mdp K}

/-- **The look-up by halving** with `partitionPoint`: the successor at the position before which the
cumulative probabilities stay below a number, the last one if there is none. -/
noncomputable def sampleByHalving (m : Mdp K) (s : State) (action : ℕ) (u : K) : State :=
  let l := m.transitions s action
  let position := partitionPoint (fun k => decide (cumulative l (k + 1) < u)) 0 l.length
  ((l[min position (l.length - 1)]?).map Prod.snd).getD s

/-- A built process lists a successor for every decision, in every state: `transitions` is never
empty. -/
theorem Built.transitions_ne_nil (hm : m.Built) (s : State) (action : ℕ) :
    m.transitions s action ≠ [] := by
  cases happ : m.isApplicable s action with
  | false => simp [transitions_eq_self happ]
  | true => exact Mdp.transitions_ne_nil hm happ

/-- A number picks the successor to which it falls. -/
theorem Built.exists_sample_eq (hm : m.Built) (s : State) (action : ℕ) {u : K} (hu : 0 ≤ u) :
    ∃ k p, (m.transitions s action)[k]? = some (p, m.sample s action u) ∧
      FallsTo (m.transitions s action) u k := by
  obtain ⟨k, ⟨p, t⟩, hk, hpick, hfalls⟩ := exists_fallsTo (hm.transitions_ne_nil s action)
    (m.transitions_pos s action) hu
  refine ⟨k, p, ?_, hfalls⟩
  rw [sample, hpick]
  exact hk

/-- Each successor is listed at one position. -/
theorem eq_of_transitions_getElem? {s t : State} {action j k : ℕ} {p q : K}
    (hj : (m.transitions s action)[j]? = some (p, t))
    (hk : (m.transitions s action)[k]? = some (q, t)) : j = k := by
  have hlength : j < (m.successors s action).length := by
    rw [successors, List.length_map]
    exact (List.getElem?_eq_some_iff.mp hj).1
  refine (List.getElem?_inj hlength (m.nodup_successors s action)).mp ?_
  simp [successors, hj, hk]

/-- `sample` gives the successor at a position exactly for the numbers that `FallsTo` this
position. -/
theorem Built.sample_eq_iff (hm : m.Built) {s t : State} {action k : ℕ} {p u : K} (hu : 0 ≤ u)
    (hk : (m.transitions s action)[k]? = some (p, t)) :
    m.sample s action u = t ↔ FallsTo (m.transitions s action) u k := by
  obtain ⟨j, q, hj, hfalls⟩ := hm.exists_sample_eq s action hu
  constructor
  · rintro rfl
    rwa [← eq_of_transitions_getElem? hj hk]
  · intro hfalls'
    obtain rfl := hfalls.unique (m.transitions_pos s action) hu
      (List.getElem?_eq_some_iff.mp hj).1 (List.getElem?_eq_some_iff.mp hk).1 hfalls'
    exact congrArg Prod.snd (Option.some.inj (hj.symm.trans hk))

/-- **Sampling realises the distribution of the successors.** In a built process, in every state and
for every number of a decision, some successor is listed, so that the state itself is never returned
for want of one, and the cumulative probabilities ascend. A number that is not negative picks the
successor at a position exactly when it lies above the probabilities before it and not above those
up to it, where the first successor also takes zero and the last one also takes all numbers above
the sum; looking the number up by halving finds the same one. What is picked has positive
probability. When the probabilities add up to one, the numbers between zero and one that pick a
successor are an interval, and its length is the probability of the successor. -/
theorem sample_intervals (hm : m.Built) (s : State) (action : ℕ) :
    m.transitions s action ≠ [] ∧
    (∀ j k, j < k → k ≤ (m.transitions s action).length →
      cumulative (m.transitions s action) j < cumulative (m.transitions s action) k) ∧
    (∀ u, 0 ≤ u →
      (∀ k p t, (m.transitions s action)[k]? = some (p, t) →
        (m.sample s action u = t ↔
          (cumulative (m.transitions s action) k < u ∧
            u ≤ cumulative (m.transitions s action) (k + 1)) ∨
          (k = 0 ∧ u = 0) ∨
          (k + 1 = (m.transitions s action).length ∧
            cumulative (m.transitions s action) (k + 1) < u))) ∧
      m.sample s action u = m.sampleByHalving s action u ∧
      ∃ p, (p, m.sample s action u) ∈ m.transitions s action ∧ 0 < p) ∧
    (((m.transitions s action).map Prod.fst).sum = 1 →
      ∀ k p t, (m.transitions s action)[k]? = some (p, t) →
        {u | 0 ≤ u ∧ u ≤ 1 ∧ m.sample s action u = t} =
          if k = 0 then Set.Icc 0 p
          else Set.Ioc (cumulative (m.transitions s action) k)
            (cumulative (m.transitions s action) k + p)) := by
  have hpos := m.transitions_pos s action
  refine ⟨hm.transitions_ne_nil s action, fun j k hjk hk => ?_, fun u hu => ⟨?_, ?_, ?_⟩, ?_⟩
  · have hj : (m.transitions s action)[j]? = some (m.transitions s action)[j] :=
      List.getElem?_eq_getElem (hjk.trans_le hk)
    calc cumulative (m.transitions s action) j
        < cumulative (m.transitions s action) (j + 1) :=
          cumulative_succ hj ▸ lt_add_of_pos_right _ (hpos _ (List.mem_of_getElem? hj))
      _ ≤ cumulative (m.transitions s action) k :=
          cumulative_mono (fun x hx => (hpos x hx).le) hjk
  · exact fun k p t hk => hm.sample_eq_iff hu hk
  · obtain ⟨k, p, hk, hfalls⟩ := hm.exists_sample_eq s action hu
    rw [sampleByHalving]
    simp only [partitionPoint_of_fallsTo hpos hu (List.getElem?_eq_some_iff.mp hk).1 hfalls, hk]
    rfl
  · obtain ⟨k, p, hk, -⟩ := hm.exists_sample_eq s action hu
    exact ⟨p, List.mem_of_getElem? hk, hpos _ (List.mem_of_getElem? hk)⟩
  · intro hsum k p t hk
    rw [← setOf_fallsTo hpos hsum hk]
    ext u
    exact and_congr_right fun hu => and_congr_right fun _ => hm.sample_eq_iff hu hk

/-- The toss comes up true with a third and false with two thirds, in this order. -/
theorem transitions_toss : tossProcess.transitions tossProcess.initialState 0 =
    [(1 / 3, .running (.ofList [⟨1⟩]) 1 .empty), (2 / 3, .running .empty 1 .empty)] := by
  decide +kernel

/-- A third of the numbers make the toss come up true, the border included, and the others do not.
-/
theorem sample_intervals_toss :
    tossProcess.Built ∧ tossProcess.transitions tossProcess.initialState 0 ≠ [] ∧
      tossProcess.sample tossProcess.initialState 0 (1 / 3) =
        .running (.ofList [⟨1⟩]) 1 .empty ∧
      {u | 0 ≤ u ∧ u ≤ 1 ∧ tossProcess.sample tossProcess.initialState 0 u =
        .running (.ofList [⟨1⟩]) 1 .empty} = Set.Icc 0 (1 / 3) ∧
      {u | 0 ≤ u ∧ u ≤ 1 ∧ tossProcess.sample tossProcess.initialState 0 u =
        .running .empty 1 .empty} = Set.Ioc (1 / 3) 1 := by
  obtain ⟨hne, -, hpicks, hintervals⟩ :=
    sample_intervals tossProcess_built tossProcess.initialState 0
  obtain ⟨hpick, -⟩ := hpicks (1 / 3) (by norm_num)
  rw [transitions_toss] at hpick hintervals
  have hinterval := hintervals (by norm_num)
  refine ⟨tossProcess_built, hne, (hpick 0 _ _ rfl).mpr (Or.inl ?_), hinterval 0 _ _ rfl, ?_⟩
  · norm_num
  · have htails := hinterval 1 _ _ rfl
    norm_num at htails
    exact htails

end Mdp

end DurativePlanning
