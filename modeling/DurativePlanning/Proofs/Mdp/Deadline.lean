import DurativePlanning.Proofs.Mdp.Mass
import DurativePlanning.Proofs.Mdp.MacroStep

/-!
# A Longer Deadline

The same problem is built with two deadlines. The process with the longer one goes on where the
other has failed already; apart from that nothing differs but the time that is left. A state of the
longer process is cut by sending it to failure when it is later than the shorter deadline, and by
taking the additional time from it otherwise. Whatever decisions are made in order, cutting the
final states of the longer process gives those of the shorter one.

What may differ is the weight of failure: the shorter process stops drawing once it has failed, and
the other goes on with draws whose probabilities need not add up to exactly one.

* `Mdp.Rescheduled`: the processes of one problem with two deadlines.
* `Mdp.cut`: a state of the longer process, as seen under the shorter deadline.
* `Mdp.Rescheduled.transitions_cut`: one decision, cut.
* `Mdp.Rescheduled.exists_reach_cut`: decisions in order, by induction on them.
* `Mdp.reach_cut`: final states, applicability and the chance of reaching the goals.
-/

namespace DurativePlanning

namespace Mdp

variable {K : Type} [Field K] [LinearOrder K] [IsStrictOrderedRing K] [FloorSemiring K]

/-! ### One problem, two deadlines -/

/-- The processes of **one problem with two deadlines**, in one of the modes; the discounts may
differ. -/
inductive Rescheduled (deadline deadline' : ℕ) : Mdp K → Mdp K → Prop
  | split {p : ConvertedProblem K} {discount discount' : K} {m m' : Mdp K} :
      ofConverted (p.withDeadline deadline) discount = .ok m →
      ofConverted (p.withDeadline deadline') discount' = .ok m' →
      Rescheduled deadline deadline' m m'
  | combination {p : CombinationProblem K} {discount discount' : K} {m m' : Mdp K} :
      ofCombination (p.withDeadline deadline) discount = .ok m →
      ofCombination (p.withDeadline deadline') discount' = .ok m' →
      Rescheduled deadline deadline' m m'

/-- A state of a process **as seen under a shorter deadline**: `failed` if it is later than the
deadline, and otherwise the same state with less time left. -/
def cut (m : Mdp K) (deadline : ℕ) : State → State
  | .failed => .failed
  | .running atoms remaining agenda =>
    if deadline < m.elapsed (.running atoms remaining agenda) then .failed
    else .running atoms (remaining - (m.deadline - deadline)) agenda

namespace Rescheduled

variable {deadline deadline' : ℕ} {m m' : Mdp K}

/-- The process with the first deadline is `Built`. -/
theorem built (h : Rescheduled deadline deadline' m m') : m.Built := by
  cases h with
  | split h _ => exact Built.split h
  | combination h _ => exact Built.combination h

/-- The process with the second deadline is `Built`. -/
theorem built' (h : Rescheduled deadline deadline' m m') : m'.Built := by
  cases h with
  | split _ h => exact Built.split h
  | combination _ h => exact Built.combination h

/-- **Nothing differs but the deadline** of the `core` and the discount, which no decision looks
at. -/
theorem eq_withDeadline (h : Rescheduled deadline deadline' m m') :
    m' = { m with core := m.core.withDeadline deadline', discount := m'.discount } := by
  cases h with
  | split h h' =>
      obtain ⟨-, rfl⟩ := ofConverted_eq_ok_iff.mp h
      obtain ⟨-, rfl⟩ := ofConverted_eq_ok_iff.mp h'
      rfl
  | combination h h' =>
      obtain ⟨-, rfl⟩ := ofCombination_eq_ok_iff.mp h
      obtain ⟨-, rfl⟩ := ofCombination_eq_ok_iff.mp h'
      rfl

theorem deadline_eq (h : Rescheduled deadline deadline' m m') : m.deadline = deadline := by
  cases h with
  | split h _ => obtain ⟨-, rfl⟩ := ofConverted_eq_ok_iff.mp h; rfl
  | combination h _ => obtain ⟨-, rfl⟩ := ofCombination_eq_ok_iff.mp h; rfl

theorem deadline_eq' (h : Rescheduled deadline deadline' m m') : m'.deadline = deadline' := by
  rw [h.eq_withDeadline]
  rfl

/-- `kind?` does not depend on the deadline. -/
theorem kind?_eq (h : Rescheduled deadline deadline' m m') (a : ℕ) : m'.kind? a = m.kind? a := by
  rw [h.eq_withDeadline]
  rfl

/-- `cost` does not depend on the deadline. -/
theorem cost_eq (h : Rescheduled deadline deadline' m m') (kind : ActionKind) :
    m'.cost kind = m.cost kind := by
  rw [h.eq_withDeadline]
  cases kind <;> rfl

/-- **Applicability depends neither on the deadline nor on the time left**: `isApplicable` is the
same in both processes, in states that differ in the time left. -/
theorem isApplicable_running (h : Rescheduled deadline deadline' m m') (atoms : AtomSet)
    (remaining remaining' : ℕ) (agenda : Agenda) (a : ℕ) :
    m'.isApplicable (.running atoms remaining' agenda) a =
      m.isApplicable (.running atoms remaining agenda) a := by
  rw [h.eq_withDeadline]
  rfl

/-- `firings` depend neither on the deadline nor on the time left. -/
theorem firings_running (h : Rescheduled deadline deadline' m m') (atoms : AtomSet)
    (remaining remaining' : ℕ) (agenda : Agenda) (kind : ActionKind) :
    m'.firings (.running atoms remaining' agenda) kind =
      m.firings (.running atoms remaining agenda) kind := by
  rw [h.eq_withDeadline]
  cases kind <;> rfl

/-- `nextAgenda` depends neither on the deadline nor on the time left. -/
theorem nextAgenda_running (h : Rescheduled deadline deadline' m m') (atoms : AtomSet)
    (remaining remaining' : ℕ) (agenda : Agenda) (kind : ActionKind) :
    m'.nextAgenda (.running atoms remaining' agenda) kind =
      m.nextAgenda (.running atoms remaining agenda) kind := by
  rw [h.eq_withDeadline]
  cases kind <;> rfl

/-! ### Cutting a state -/

/-- The ticks that have passed are the deadline without the time left. -/
theorem elapsed_running (h : Rescheduled deadline deadline' m m') (atoms : AtomSet)
    (remaining : ℕ) (agenda : Agenda) :
    m'.elapsed (.running atoms remaining agenda) = deadline' - remaining := by
  rw [elapsed, h.deadline_eq']
  rfl

/-- `cut` fails a state in which less time is left than the longer deadline adds. -/
theorem cut_of_lt (h : Rescheduled deadline deadline' m m') {atoms : AtomSet} {remaining : ℕ}
    {agenda : Agenda} (hlate : remaining < deadline' - deadline) :
    m'.cut deadline (.running atoms remaining agenda) = .failed := by
  have helapsed : deadline < m'.elapsed (.running atoms remaining agenda) := by
    rw [h.elapsed_running]
    omega
  rw [cut, if_pos helapsed]

/-- `cut` takes the added time from a state that has it left. -/
theorem cut_of_le (h : Rescheduled deadline deadline' m m') {atoms : AtomSet} {remaining : ℕ}
    {agenda : Agenda} (htime : deadline' - deadline ≤ remaining) :
    m'.cut deadline (.running atoms remaining agenda) =
      .running atoms (remaining - (deadline' - deadline)) agenda := by
  have helapsed : ¬deadline < m'.elapsed (.running atoms remaining agenda) := by
    rw [h.elapsed_running]
    omega
  rw [cut, if_neg helapsed, h.deadline_eq']

/-- Both processes begin alike: `cut` of the longer one's `initialState` is that of the shorter
one. -/
theorem cut_initialState (h : Rescheduled deadline deadline' m m')
    (hle : deadline ≤ deadline') : m'.cut deadline m'.initialState = m.initialState := by
  have hinitial : m'.initialState = .running m.core.initial deadline' .empty := by
    rw [h.eq_withDeadline]
    rfl
  have hleft : deadline' - (deadline' - deadline) = m.core.deadline :=
    (Nat.sub_sub_self hle).trans h.deadline_eq.symm
  rw [hinitial, h.cut_of_le (Nat.sub_le _ _), hleft]
  rfl

/-- A state that is a goal after `cut` was one before. -/
theorem isGoal_of_cut (h : Rescheduled deadline deadline' m m') {s : State}
    (hs : m.isGoal (m'.cut deadline s) = true) : m'.isGoal s = true := by
  cases s with
  | failed => exact absurd hs (by simp [cut, isGoal, State.isFailed])
  | running atoms remaining agenda =>
      rcases Nat.lt_or_ge remaining (deadline' - deadline) with hlate | htime
      · rw [h.cut_of_lt hlate] at hs
        exact absurd hs (by simp [isGoal, State.isFailed])
      · rw [h.cut_of_le htime] at hs
        rw [h.eq_withDeadline]
        exact hs

/-! ### Cutting a decision -/

/-- **Once too late, always too late**: `cut` fails every successor of a state that it fails, since
a decision never adds time. -/
theorem cut_successors (h : Rescheduled deadline deadline' m m') {s t : State} {a : ℕ}
    (hs : m'.cut deadline s = .failed) (ht : t ∈ m'.successors s a) :
    m'.cut deadline t = .failed := by
  cases happ : m'.isApplicable s a with
  | false =>
      rw [successors, transitions_eq_self happ] at ht
      obtain rfl : t = s := List.mem_singleton.mp ht
      exact hs
  | true =>
      cases t with
      | failed => rfl
      | running atoms remaining agenda =>
          have hless : remaining < s.remaining := remaining_lt happ ht rfl
          refine h.cut_of_lt ?_
          by_contra htime
          cases s with
          | failed => exact absurd happ (by simp [isApplicable, State.isFailed])
          | running atoms' remaining' agenda' =>
              change remaining < remaining' at hless
              rw [h.cut_of_le (by omega)] at hs
              exact absurd hs (by simp)

/-- `cut` commutes with `resultOf` for a decision that ends within the shorter deadline. -/
theorem cut_resultOf (h : Rescheduled deadline deadline' m m') {atoms : AtomSet}
    {remaining : ℕ} {agenda : Agenda} {kind : ActionKind} (htime : deadline' - deadline ≤ remaining)
    (hcost : m.cost kind ≤ remaining - (deadline' - deadline)) (reached : AtomSet) :
    m'.cut deadline (m'.resultOf (.running atoms remaining agenda) kind reached) =
      m.resultOf (.running atoms (remaining - (deadline' - deadline)) agenda) kind reached := by
  have hleft : deadline' - deadline ≤ remaining - m.cost kind := by omega
  have hnext : remaining - m.cost kind - (deadline' - deadline) =
      remaining - (deadline' - deadline) - m.cost kind := by omega
  simp only [resultOf, State.remaining, h.cost_eq]
  rw [h.cut_of_le hleft, hnext,
    h.nextAgenda_running atoms (remaining - (deadline' - deadline)) remaining agenda kind]

/-- **One decision, cut.** Either `transitions` of the longer process are those of the shorter one
after the `cut`, with the same probabilities and in the same order, or the shorter process fails and
the longer one is too late from then on. -/
theorem transitions_cut (h : Rescheduled deadline deadline' m m') (s : State) (a : ℕ) :
    m.transitions (m'.cut deadline s) a =
      (m'.transitions s a).map (fun x => (x.1, m'.cut deadline x.2)) ∨
    m.transitions (m'.cut deadline s) a = [(1, .failed)] ∧
      ∀ t ∈ m'.successors s a, m'.cut deadline t = .failed := by
  cases s with
  | failed => exact Or.inl (by rw [cut, transitions_eq_self rfl, transitions_eq_self rfl]; rfl)
  | running atoms remaining agenda =>
      rcases Nat.lt_or_ge remaining (deadline' - deadline) with hlate | htime
      · -- the shorter process has failed before
        have hcut : m'.cut deadline (.running atoms remaining agenda) = .failed :=
          h.cut_of_lt hlate
        rw [hcut, transitions_eq_self rfl]
        exact Or.inr ⟨rfl, fun t ht => h.cut_successors hcut ht⟩
      · have hsame := h.isApplicable_running atoms (remaining - (deadline' - deadline)) remaining
          agenda a
        rw [h.cut_of_le htime]
        cases happ : m'.isApplicable (.running atoms remaining agenda) a with
        | false =>
            rw [transitions_eq_self happ, transitions_eq_self (hsame ▸ happ), List.map_singleton,
              h.cut_of_le htime]
            exact Or.inl rfl
        | true =>
            obtain ⟨-, kind, hkind, -⟩ := isApplicable_iff.mp happ
            have hkind' : m.kind? a = some kind := (h.kind?_eq a).symm.trans hkind
            rcases Nat.lt_or_ge (remaining - (deadline' - deadline)) (m.cost kind) with hover | hcost
            · -- the decision overruns the shorter deadline, and perhaps the longer one too
              refine Or.inr ⟨transitions_eq_failed (hsame ▸ happ) hkind' hover, ?_⟩
              intro t ht
              rcases mem_successors ht with ⟨hnot, -⟩ | ⟨-, rfl⟩ |
                ⟨kind', -, hkind'', -, hcost', reached, -, rfl⟩
              · exact absurd happ (by simp [hnot])
              · rfl
              · obtain rfl : kind' = kind := Option.some.inj (hkind''.symm.trans hkind)
                rw [h.cost_eq] at hcost'
                refine h.cut_of_lt ?_
                simp only [State.remaining, h.cost_eq] at hcost' ⊢
                omega
            · -- the decision is in time for both
              have hcost' : m'.cost kind ≤ State.remaining (.running atoms remaining agenda) := by
                rw [h.cost_eq, State.remaining]
                omega
              have hleft : m.cost kind ≤ State.remaining
                  (.running atoms (remaining - (deadline' - deadline)) agenda) := hcost
              have hatoms : m'.core.atoms = m.core.atoms := by
                rw [h.eq_withDeadline]
                rfl
              left
              rw [transitions_eq_collect happ hkind hcost',
                transitions_eq_collect (hsame ▸ happ) hkind' hleft,
                collect_map (injective_resultOf _ _ _), collect_map (injective_resultOf _ _ _),
                List.map_map, hatoms,
                h.firings_running atoms (remaining - (deadline' - deadline)) remaining agenda kind]
              refine List.map_congr_left fun x _ => ?_
              exact Prod.ext rfl (h.cut_resultOf htime hcost x.2).symm

/-- The successors of the shorter process are those of the longer one after `cut`. -/
theorem mem_successors_cut (h : Rescheduled deadline deadline' m m') {s t : State} {a : ℕ} :
    t ∈ m.successors (m'.cut deadline s) a ↔
      ∃ u ∈ m'.successors s a, m'.cut deadline u = t := by
  rcases h.transitions_cut s a with hsame | ⟨hfailed, hlate⟩
  · rw [successors, hsame, List.map_map, successors, ← List.mem_map, List.map_map]
    rfl
  · have hne := (transitions_distribution h.built' s a).1
    obtain ⟨x, hx⟩ := List.exists_mem_of_ne_nil _ hne
    have hmem : x.2 ∈ m'.successors s a := List.mem_map_of_mem hx
    rw [successors, hfailed, List.map_singleton, List.mem_singleton]
    constructor
    · rintro rfl
      exact ⟨x.2, hmem, hlate x.2 hmem⟩
    · rintro ⟨u, hu, rfl⟩
      exact hlate u hu

end Rescheduled

/-! ### Decisions in order -/

/-- The weights of `reach` are not negative. -/
theorem prob_reach_nonneg (m : Mdp K) (actions : List ℕ) (s t : State) :
    0 ≤ (m.reach actions s).prob t := by
  induction actions generalizing s t with
  | nil => exact Weights.prob_pure_nonneg s t
  | cons a rest ih =>
      rw [reach_cons]
      exact Weights.prob_bind_nonneg (m.prob_transitions_nonneg s a) ih t

/-- `reach` makes a state possible after decisions in order when the rest makes it possible from a
successor of the first. -/
theorem prob_reach_cons_pos_iff {m : Mdp K} {a : ℕ} {rest : List ℕ} {s t : State} :
    0 < (m.reach (a :: rest) s).prob t ↔
      ∃ u ∈ m.successors s a, 0 < (m.reach rest u).prob t := by
  rw [reach_cons, Weights.prob_bind_pos_iff (m.prob_transitions_nonneg s a)
    (m.prob_reach_nonneg rest)]
  simp only [prob_transitions_pos_iff]

/-- When all laws are `Exact` the weights of the final states add up to one. -/
theorem mass_reach_of_exact {m : Mdp K} (hm : m.Built) (hexact : m.Exact) (actions : List ℕ)
    (s : State) : (m.reach actions s).mass = 1 := by
  induction actions generalizing s with
  | nil => exact Weights.mass_pure s
  | cons a rest ih =>
      simp only [reach_cons, Weights.mass_bind, ih, Weights.expect_const, mul_one]
      rw [Weights.mass_ofList, sum_transitions_eq_one_of_exact hm hexact]

/-- The probability that decisions in order lead from the beginning to a goal: the expectation of
`isGoal` over `reach`. -/
noncomputable def goalProb (m : Mdp K) (actions : List ℕ) : K :=
  (m.reach actions m.initialState).expect fun s => if m.isGoal s then 1 else 0

namespace Rescheduled

variable {deadline deadline' : ℕ} {m m' : Mdp K}

/-- One decision, `cut`: the weights agree up to a multiple of the weight of `failed`. -/
theorem exists_transitions_cut (h : Rescheduled deadline deadline' m m') (s : State) (a : ℕ) :
    ∃ e : K, m'.cut deadline <$> Weights.ofList (m'.transitions s a) =
      Weights.ofList (m.transitions (m'.cut deadline s) a) + e • pure .failed := by
  rw [← Weights.ofList_map]
  rcases h.transitions_cut s a with hsame | ⟨hfailed, hlate⟩
  · exact ⟨0, by rw [hsame, zero_smul, add_zero]⟩
  · have hconst : (m'.transitions s a).map (fun x => (x.1, m'.cut deadline x.2)) =
        (m'.transitions s a).map fun x => (x.1, .failed) :=
      List.map_congr_left fun x hx => by rw [hlate x.2 (List.mem_map_of_mem hx)]
    refine ⟨(Weights.ofList (m'.transitions s a)).mass - 1, ?_⟩
    rw [hconst, hfailed, Weights.ofList_singleton, Weights.ofList_map _ fun _ => State.failed,
      Weights.map_const]
    calc (Weights.ofList (m'.transitions s a)).mass • (pure .failed : Weights K State)
        = (1 + ((Weights.ofList (m'.transitions s a)).mass - 1)) • pure .failed := by
          rw [add_sub_cancel]
      _ = pure .failed + ((Weights.ofList (m'.transitions s a)).mass - 1) • pure .failed := by
          rw [add_smul, one_smul]

/-- **Decisions in order, cut**, up to the weight of `failed`: by induction on the decisions, with
the weight that the draws after a failure add to it collected on the way. -/
theorem exists_reach_cut (h : Rescheduled deadline deadline' m m') (actions : List ℕ) (s : State) :
    ∃ e : K, m'.cut deadline <$> m'.reach actions s =
      m.reach actions (m'.cut deadline s) + e • pure .failed := by
  induction actions generalizing s with
  | nil => exact ⟨0, by rw [zero_smul, add_zero]; exact map_pure _ s⟩
  | cons a rest ih =>
      choose later hlater using ih
      obtain ⟨e, he⟩ := h.exists_transitions_cut s a
      refine ⟨e + (Weights.ofList (m'.transitions s a)).expect later, ?_⟩
      calc m'.cut deadline <$> m'.reach (a :: rest) s
          = Weights.ofList (m'.transitions s a) >>= fun u =>
              m'.cut deadline <$> m'.reach rest u := by
            rw [reach_cons, map_bind]
        _ = Weights.ofList (m'.transitions s a) >>= fun u =>
              m.reach rest (m'.cut deadline u) + later u • pure .failed := bind_congr hlater
        _ = ((m'.cut deadline <$> Weights.ofList (m'.transitions s a)) >>= m.reach rest) +
              (Weights.ofList (m'.transitions s a)).expect later • pure .failed := by
            rw [Weights.bind_add, Weights.bind_smul_pure, bind_map_left]
        _ = m.reach (a :: rest) (m'.cut deadline s) + e • pure .failed +
              (Weights.ofList (m'.transitions s a)).expect later • pure .failed := by
            rw [he, Weights.add_bind, Weights.smul_bind, Weights.sure_bind, reach_failed, reach_cons]
        _ = m.reach (a :: rest) (m'.cut deadline s) +
              (e + (Weights.ofList (m'.transitions s a)).expect later) • pure .failed := by
            rw [add_assoc, add_smul]

/-- The weight that `failed` gains is the difference of the masses, since all other weights agree by
`exists_reach_cut`. -/
theorem map_cut_reach (h : Rescheduled deadline deadline' m m') (actions : List ℕ) (s : State) :
    m'.cut deadline <$> m'.reach actions s = m.reach actions (m'.cut deadline s) +
      ((m'.reach actions s).mass - (m.reach actions (m'.cut deadline s)).mass) •
        pure .failed := by
  obtain ⟨e, he⟩ := h.exists_reach_cut actions s
  have hmass : (m'.reach actions s).mass = (m.reach actions (m'.cut deadline s)).mass + e := by
    rw [← Weights.mass_map _ (m'.cut deadline), he, Weights.mass, Weights.expect_add,
      Weights.expect_smul, Weights.expect_pure, mul_one, Weights.mass]
  rw [he, hmass, add_sub_cancel_left]

/-- **The same final states are possible** for `reach` of the longer process after `cut` and for
`reach` of the shorter one, by induction on the decisions. -/
theorem prob_map_cut_reach_pos_iff (h : Rescheduled deadline deadline' m m') (actions : List ℕ)
    (s t : State) :
    0 < (m'.cut deadline <$> m'.reach actions s).prob t ↔
      0 < (m.reach actions (m'.cut deadline s)).prob t := by
  induction actions generalizing s with
  | nil => exact Iff.of_eq (congrArg (fun w => 0 < Weights.prob w t) (map_pure _ s))
  | cons a rest ih =>
      rw [reach_cons, map_bind, Weights.prob_bind_pos_iff (m'.prob_transitions_nonneg s a)
        fun u => Weights.prob_map_nonneg (m'.prob_reach_nonneg rest u) _, prob_reach_cons_pos_iff]
      simp only [prob_transitions_pos_iff, ih]
      constructor
      · rintro ⟨u, hu, ht⟩
        exact ⟨m'.cut deadline u, h.mem_successors_cut.mpr ⟨u, hu, rfl⟩, ht⟩
      · rintro ⟨v, hv, ht⟩
        obtain ⟨u, hu, rfl⟩ := h.mem_successors_cut.mp hv
        exact ⟨u, hu, ht⟩

/-- **More time reaches the goals no less often**: `goalProb` is monotone in the deadline. -/
theorem goalProb_le (h : Rescheduled deadline deadline' m m') (hle : deadline ≤ deadline')
    (actions : List ℕ) : m.goalProb actions ≤ m'.goalProb actions := by
  obtain ⟨e, he⟩ := h.exists_reach_cut actions m'.initialState
  have hfailed : m.isGoal .failed = false := rfl
  calc m.goalProb actions
      = (m'.cut deadline <$> m'.reach actions m'.initialState).expect
          fun s => if m.isGoal s then 1 else 0 := by
        rw [he, h.cut_initialState hle, Weights.expect_add, Weights.expect_smul,
          Weights.expect_pure, hfailed, goalProb]
        simp
    _ = (m'.reach actions m'.initialState).expect
          fun s => if m.isGoal (m'.cut deadline s) then 1 else 0 := Weights.expect_map _ _ _
    _ ≤ m'.goalProb actions := by
        refine Weights.expect_mono (m'.prob_reach_nonneg actions _) fun s _ => ?_
        by_cases hs : m.isGoal (m'.cut deadline s) = true
        · rw [if_pos hs, if_pos (h.isGoal_of_cut hs)]
        · rw [if_neg hs]
          split
          · exact zero_le_one
          · exact le_refl 0

end Rescheduled

/-- **A longer deadline only adds time.** For the processes of one problem with two deadlines and
any decisions in order, cutting the final states of the longer process gives the final states of the
shorter one: the same states are possible, every state but failure has the same weight, and failure
differs by the difference of the masses, which is nothing when all laws are exact. Applicability
depends neither on the deadline nor on the time left, and the goals are reached no less often with
the longer deadline. -/
theorem reach_cut {deadline deadline' : ℕ} {m m' : Mdp K} (hle : deadline ≤ deadline')
    (h : Rescheduled deadline deadline' m m') (actions : List ℕ) :
    m'.cut deadline <$> m'.reach actions m'.initialState = m.reach actions m.initialState +
      ((m'.reach actions m'.initialState).mass - (m.reach actions m.initialState).mass) •
        pure .failed ∧
    (∀ t, 0 < (m'.cut deadline <$> m'.reach actions m'.initialState).prob t ↔
      0 < (m.reach actions m.initialState).prob t) ∧
    (∀ t, t ≠ .failed → (m'.cut deadline <$> m'.reach actions m'.initialState).prob t =
      (m.reach actions m.initialState).prob t) ∧
    (m.Exact → m'.cut deadline <$> m'.reach actions m'.initialState =
      m.reach actions m.initialState) ∧
    (∀ atoms remaining remaining' agenda a,
      m'.isApplicable (.running atoms remaining' agenda) a =
        m.isApplicable (.running atoms remaining agenda) a) ∧
    m.goalProb actions ≤ m'.goalProb actions := by
  have hbegin := h.cut_initialState hle
  have himage := h.map_cut_reach actions m'.initialState
  rw [hbegin] at himage
  refine ⟨himage, ?_, ?_, ?_, ?_, h.goalProb_le hle actions⟩
  · intro t
    rw [h.prob_map_cut_reach_pos_iff, hbegin]
  · intro t ht
    rw [himage, Weights.prob_add, Weights.prob_smul, Weights.prob_pure, if_neg ht.symm, mul_zero,
      add_zero]
  · intro hexact
    have hexact' : m'.Exact := by
      rw [h.eq_withDeadline]
      exact hexact
    rw [himage, mass_reach_of_exact h.built hexact, mass_reach_of_exact h.built' hexact', sub_self,
      zero_smul, add_zero]
  · exact fun atoms remaining remaining' agenda a =>
      h.isApplicable_running atoms remaining remaining' agenda a

/-- The **failure of the longer process is heavier** than that of the shorter one when it is reached
by a draw whose probabilities add up to more than one. -/
theorem map_cut_reach_heavy_ne :
    0 ≤ 1 ∧ Rescheduled 0 1 (splitProcess (heavyProblem 0) 1) (splitProcess (heavyProblem 1) 1) ∧
      (splitProcess (heavyProblem 1) 1).cut 0 <$>
          (splitProcess (heavyProblem 1) 1).reach [0] (splitProcess (heavyProblem 1) 1).initialState ≠
        (splitProcess (heavyProblem 0) 1).reach [0]
          (splitProcess (heavyProblem 0) 1).initialState := by
  have hrescheduled :
      Rescheduled 0 1 (splitProcess (heavyProblem 0) 1) (splitProcess (heavyProblem 1) 1) :=
    .split (p := heavyProblem 0) (ofConverted_heavy 0) (ofConverted_heavy 1)
  refine ⟨by decide, hrescheduled, fun he => ?_⟩
  have hkind : (splitProcess (heavyProblem 0) 1).kind? 0 = some (.instant 0) := rfl
  have hshort : ((splitProcess (heavyProblem 0) 1).reach [0]
      (splitProcess (heavyProblem 0) 1).initialState).mass = 1 := by
    rw [reach_singleton, transitions_eq_failed rfl hkind (by decide), Weights.ofList_singleton,
      Weights.mass_pure]
  have hlong : ((splitProcess (heavyProblem 1) 1).reach [0]
      (splitProcess (heavyProblem 1) 1).initialState).mass = 1 + 1 / (2 * 10 ^ 9) := by
    rw [reach_singleton, ← sum_transitions, sum_transitions_heavy]
  have hmass := congrArg Weights.mass he
  rw [Weights.mass_map, hshort, hlong] at hmass
  norm_num at hmass

/-- The problem of the toss, with a deadline. -/
def tossProblem (deadline : ℕ) : ConvertedProblem ℚ :=
  ⟨⟨"toss", {}, .empty, .empty, [⟨⟨1⟩, true⟩], deadline⟩, [toss]⟩

theorem ofConverted_toss (deadline : ℕ) :
    ofConverted (tossProblem deadline) 1 = .ok (splitProcess (tossProblem deadline) 1) := by
  refine ofConverted_eq_ok_iff.mpr ⟨check_eq_ok_iff.mpr ⟨by norm_num, ?_⟩, rfl⟩
  simpa [tossProcess, splitProcess, tossProblem] using tossProcess_built.laws

/-- The toss takes one tick: with no time left it fails, and with one tick it comes up. -/
theorem reach_cut_toss :
    0 ≤ 1 ∧ Rescheduled 0 1 (splitProcess (tossProblem 0) 1) (splitProcess (tossProblem 1) 1) ∧
      (splitProcess (tossProblem 0) 1).Exact ∧
      (splitProcess (tossProblem 1) 1).cut 0 <$>
          (splitProcess (tossProblem 1) 1).reach [0, 1]
            (splitProcess (tossProblem 1) 1).initialState =
        (splitProcess (tossProblem 0) 1).reach [0, 1]
          (splitProcess (tossProblem 0) 1).initialState := by
  have hrescheduled :
      Rescheduled 0 1 (splitProcess (tossProblem 0) 1) (splitProcess (tossProblem 1) 1) :=
    .split (p := tossProblem 0) (ofConverted_toss 0) (ofConverted_toss 1)
  have hexact : (splitProcess (tossProblem 0) 1).Exact := by
    have hcoin : (Law.coin (1 / 3 : ℚ) (2 / 3)).Exact := by
      intro branch hbranch
      obtain rfl := List.mem_singleton.mp hbranch
      norm_num
    simpa [Exact, splitProcess, tossProblem, toss, ConvertedAction.events, ConvertedAction.start,
      ConvertedAction.finish?] using hcoin
  obtain ⟨-, -, -, himage, -⟩ := reach_cut (Nat.zero_le 1) hrescheduled [0, 1]
  exact ⟨by decide, hrescheduled, hexact, himage hexact⟩

end Mdp

end DurativePlanning
