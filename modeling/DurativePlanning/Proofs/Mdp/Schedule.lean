import DurativePlanning.Proofs.Mdp.Run
import Mathlib.Data.Rat.Floor

/-!
# The Agenda Records the Run

In split mode the agenda of a state is a function of the decisions that led to it: an action that
was started `k` ticks after the beginning and lasts for `d` ticks is listed until `k + d` ticks
have passed, with what is left of them, and its end event is evaluated in the step that completes
them. This module proves it for runs of any length, by induction on the number of decisions.

* `Mdp.Recorded`: the invariant, time and agenda in terms of the decisions taken.
* `Mdp.IsRun.recorded`: every run keeps it.
* `Mdp.IsRun.mem_endsAt_iff`, `Mdp.IsRun.starts_apart`: which end events a step evaluates, and that
  the same action is not started again before its end.
* `agenda_determined_by_starts`: all of it for a state of a run that has not failed.
-/

namespace DurativePlanning

variable {α : Type}

/-- Entries are strictly ascending by ticks left, then by the position of the action. -/
def InFlight.Before (a b : InFlight) : Prop :=
  a.ticksLeft < b.ticksLeft ∨ (a.ticksLeft = b.ticksLeft ∧ a.action < b.action)

namespace Mdp

/-- Decision number `k` starts the action at position `i`. -/
def Starts (m : Mdp α) (action : ℕ → ℕ) (k i : ℕ) : Prop := m.kind? (action k) = some (.start i)

/-- The actions whose end events are evaluated with decision number `k`, in order. -/
def endsAt (m : Mdp α) (state : ℕ → State) (action : ℕ → ℕ) (k : ℕ) : List ℕ :=
  (m.kind? (action k)).elim [] (m.ended (state k))

/-- The entry at time `n` of an action started at time `k`: the ticks that are left of its
duration. -/
def entryAt (m : Mdp α) (n k i : ℕ) : InFlight := ⟨k + m.durationOf i - n, i⟩

/-- **The invariant**: after `n` decisions `n` ticks have passed, no action is listed twice, and the
agenda lists exactly the actions whose durations are not over yet. -/
structure Recorded (m : Mdp α) (action : ℕ → ℕ) (n : ℕ) (s : State) : Prop where
  time : s.remaining + n = m.deadline
  distinct : (s.agenda.toList.map (·.action)).Nodup
  mem_agenda : ∀ e, e ∈ s.agenda.toList ↔
    ∃ k i, m.Starts action k i ∧ k < n ∧ n < k + m.durationOf i ∧ e = m.entryAt n k i

/-! ### Entries with distinct actions -/

/-- Entries of an agenda whose actions are distinct ascend strictly by `Before`. -/
theorem pairwise_before {a : Agenda} (hdistinct : (a.toList.map (·.action)).Nodup) :
    a.toList.Pairwise InFlight.Before := by
  have hne : a.toList.Pairwise fun x y => x.action ≠ y.action := List.pairwise_map.mp hdistinct
  refine a.ordered.imp₂ (fun x y hxy hne => ?_) hne
  rw [InFlight.notAfter_iff] at hxy
  rw [InFlight.Before]
  omega

/-- `filter`, `tick` and `ofList` keep the actions of entries distinct. -/
theorem nodup_action_ofList {l : List InFlight} {q : InFlight → Bool} {f : InFlight → InFlight}
    (hf : ∀ e, (f e).action = e.action) (hl : (l.map (·.action)).Nodup) :
    ((Agenda.ofList ((l.filter q).map f)).toList.map (·.action)).Nodup := by
  rw [((Agenda.perm_ofList _).map _).nodup_iff, List.map_map]
  have hcomp : (fun e : InFlight => e.action) ∘ f = (·.action) := funext hf
  rw [hcomp]
  exact hl.sublist ((List.filter_sublist).map _)

/-- `initialState` is `Recorded`: no time has passed and nothing is running. -/
theorem recorded_initialState (m : Mdp α) (action : ℕ → ℕ) :
    m.Recorded action 0 m.initialState where
  time := rfl
  distinct := List.nodup_nil
  mem_agenda e := by simp [initialState, State.agenda, Agenda.empty]

/-- Two `Recorded` states with the same atoms, the same time left and the same set of entries are
the same state, since the order of the entries is determined. -/
theorem Recorded.eq_of_mem_iff {m : Mdp α} {s t : State} {n n' : ℕ}
    {action action' : ℕ → ℕ}
    (hs : m.Recorded action n s) (ht : m.Recorded action' n' t) (hsf : s.isFailed = false)
    (htf : t.isFailed = false) (hatoms : s.atoms = t.atoms) (hremaining : s.remaining = t.remaining)
    (hentries : ∀ e, e ∈ s.agenda.toList ↔ e ∈ t.agenda.toList) : s = t := by
  have hagenda : s.agenda = t.agenda := Agenda.eq_of_perm
    ((List.perm_ext_iff_of_nodup hs.distinct.of_map ht.distinct.of_map).mpr hentries)
  cases s with
  | failed => exact absurd hsf (by simp [State.isFailed])
  | running atoms remaining agenda =>
      cases t with
      | failed => exact absurd htf (by simp [State.isFailed])
      | running atoms' remaining' agenda' =>
          cases hatoms; cases hremaining; cases hagenda; rfl

variable [Arithmetic α]

section Converted

variable {p : GroundProblem α} {discount : α} {m : Mdp α}

/-- An action that is started lasts for at least one tick. -/
theorem durationOf_pos (hm : ofConverted p.convert discount = .ok m) {a i : ℕ}
    (hkind : m.kind? a = some (.start i)) : 1 ≤ m.durationOf i := by
  obtain ⟨rfl, action, resources, combinable, hc⟩ := start_cases hm hkind
  rw [durationOf, getElem?_singles hm, hc]
  obtain ⟨g, -, hg⟩ := List.mem_map.mp (List.mem_of_getElem? hc)
  obtain ⟨hzero, rfl⟩ := GroundAction.convert_split (congrArg ConvertedAction.course hg)
  exact Nat.one_le_iff_ne_zero.mpr hzero

end Converted

section Split

variable {p : ConvertedProblem α} {discount : α} {m : Mdp α}

/-- `entries` that compete for a tick have distinct actions: `admits` does not let an action that is
running be started. -/
theorem nodup_entries (hm : ofConverted p discount = .ok m) {s : State} {a : ℕ}
    {kind : ActionKind} (hkind : m.kind? a = some kind) (hadmits : m.admits s kind = true)
    (hdistinct : (s.agenda.toList.map (·.action)).Nodup) :
    ((m.entries s kind).map (·.action)).Nodup := by
  rw [entries, List.map_append]
  cases kind with
  | start i =>
      rw [entering_start hm hkind]
      refine List.nodup_cons.mpr ⟨fun hmem => ?_, hdistinct⟩
      obtain ⟨e, he, hei⟩ := List.mem_map.mp hmem
      have hrunning : s.inFlight i = true :=
        List.any_eq_true.mpr ⟨e, he, beq_iff_eq.mpr hei⟩
      simp [admits, hrunning] at hadmits
  | instant i | wait | single i | combined j => exact hdistinct

/-- The record one decision later: a successor that has not failed is `Recorded` with the decision
added. -/
theorem Recorded.step (hm : ofConverted p discount = .ok m) {action : ℕ → ℕ} {n : ℕ} {s t : State}
    (hs : m.Recorded action n s) (happ : m.isApplicable s (action n) = true)
    (ht : t ∈ m.successors s (action n)) (hfail : t.isFailed = false) :
    m.Recorded action (n + 1) t := by
  obtain ⟨kind, hkind, hadmits, htime, hremaining, hagenda⟩ := split_successor hm happ ht hfail
  have hentries := nodup_entries hm hkind hadmits hs.distinct
  refine ⟨?_, ?_, fun e => ?_⟩
  · have := hs.time
    omega
  · rw [hagenda]
    exact nodup_action_ofList (fun _ => rfl) hentries
  · rw [hagenda, Agenda.mem_ofList, List.mem_map]
    simp only [List.mem_filter, decide_eq_true_eq, mem_entries hm hkind]
    constructor
    · rintro ⟨e', ⟨⟨i, rfl, rfl⟩ | he', hlong⟩, rfl⟩
      · -- the action that has just been started
        refine ⟨n, i, hkind, by omega, by simp only at hlong; omega, ?_⟩
        simp only [entryAt, InFlight.tick, InFlight.mk.injEq, and_true]
        omega
      · -- an action that was running before
        obtain ⟨k, i, hstart, hk, -, rfl⟩ := (hs.mem_agenda e').mp he'
        simp only [entryAt] at hlong
        refine ⟨k, i, hstart, by omega, by omega, ?_⟩
        simp only [entryAt, InFlight.tick, InFlight.mk.injEq, and_true]
        omega
    · rintro ⟨k, i, hstart, hk, hlong, rfl⟩
      rcases Nat.lt_succ_iff_lt_or_eq.mp hk with hk | rfl
      · refine ⟨m.entryAt n k i, ⟨Or.inr ((hs.mem_agenda _).mpr
          ⟨k, i, hstart, hk, by omega, rfl⟩), ?_⟩, ?_⟩
        · simp only [entryAt]
          omega
        · simp only [entryAt, InFlight.tick, InFlight.mk.injEq, and_true]
          omega
      · obtain rfl : kind = .start i := Option.some.inj (hkind.symm.trans hstart)
        refine ⟨⟨m.durationOf i, i⟩, ⟨Or.inl ⟨i, rfl, rfl⟩, by simp only; omega⟩, ?_⟩
        simp only [entryAt, InFlight.tick, InFlight.mk.injEq, and_true]
        omega

/-- **Every run keeps the record**, as long as it has not failed: by induction on the step with
`Recorded.step`. -/
theorem IsRun.recorded (hm : ofConverted p discount = .ok m) {n : ℕ} {state : ℕ → State}
    {action : ℕ → ℕ} (run : m.IsRun n state action) (hlast : (state n).isFailed = false) {k : ℕ}
    (hk : k ≤ n) : m.Recorded action k (state k) := by
  induction k with
  | zero =>
      rw [run.begins]
      exact recorded_initialState m action
  | succ k ih =>
      exact (ih (by omega)).step hm (run.applicable k hk) (run.follows k hk)
        (run.not_failed hlast hk)

end Split

/-! ### Ends -/

section Ends

variable {p : GroundProblem α} {discount : α} {m : Mdp α} {n : ℕ} {state : ℕ → State}
  {action : ℕ → ℕ}

/-- `ended` lists no action twice. -/
theorem nodup_ended (hm : ofConverted p.convert discount = .ok m) {s : State} {a : ℕ}
    {kind : ActionKind} (hkind : m.kind? a = some kind) (hadmits : m.admits s kind = true)
    (hdistinct : (s.agenda.toList.map (·.action)).Nodup) : (m.ended s kind).Nodup := by
  have hentries := nodup_entries hm hkind hadmits hdistinct
  rw [ended_split hm hkind, ((Agenda.perm_ofList _).map _).nodup_iff]
  exact hentries.sublist (List.filter_sublist.map _)

/-- The kind of a decision of a run, and that the state before it admits it. -/
theorem IsRun.kind (run : m.IsRun n state action) {k : ℕ} (hk : k < n) :
    ∃ kind, m.kind? (action k) = some kind ∧ m.admits (state k) kind = true :=
  (isApplicable_iff.mp (run.applicable k hk)).2

/-- **Which ends a step evaluates**: those of the actions started at a step `k` whose duration ends
with this one. -/
theorem IsRun.mem_endsAt_iff (hm : ofConverted p.convert discount = .ok m)
    (run : m.IsRun n state action) (hlast : (state n).isFailed = false) {j i : ℕ} (hj : j < n) :
    i ∈ m.endsAt state action j ↔ ∃ k, m.Starts action k i ∧ k + m.durationOf i = j + 1 := by
  obtain ⟨kind, hkind, -⟩ := run.kind hj
  have hrec := run.recorded hm hlast hj.le
  rw [endsAt, hkind, Option.elim_some, mem_ended_iff hm hkind]
  simp only [mem_entries hm hkind]
  constructor
  · rintro ⟨e, ⟨i, rfl, rfl⟩ | he, hdue, rfl⟩
    · have := durationOf_pos hm hkind
      exact ⟨j, hkind, by simp only at hdue ⊢; omega⟩
    · obtain ⟨k, i, hstart, hk, hlong, rfl⟩ := (hrec.mem_agenda e).mp he
      simp only [entryAt] at hdue ⊢
      exact ⟨k, hstart, by omega⟩
  · rintro ⟨k, hstart, hend⟩
    have hpos := durationOf_pos hm hstart
    rcases Nat.lt_or_ge k j with hk | hk
    · refine ⟨m.entryAt j k i, Or.inr ((hrec.mem_agenda _).mpr
        ⟨k, i, hstart, hk, by omega, rfl⟩), ?_, rfl⟩
      simp only [entryAt]
      omega
    · obtain rfl : k = j := by omega
      obtain rfl : kind = .start i := Option.some.inj (hkind.symm.trans hstart)
      exact ⟨⟨m.durationOf i, i⟩, Or.inl ⟨i, rfl, rfl⟩, by simp only; omega, rfl⟩

/-- **An action is not started again before its end**: until then the agenda has an entry of it, and
`admits` asks that there is none. -/
theorem IsRun.starts_apart (hm : ofConverted p.convert discount = .ok m)
    (run : m.IsRun n state action) (hlast : (state n).isFailed = false) {i k k' : ℕ}
    (hk : m.Starts action k i) (hk' : m.Starts action k' i) (hlt : k < k') (hn : k' < n) :
    k + m.durationOf i ≤ k' := by
  by_contra hlong
  obtain ⟨kind, hkind, hadmits⟩ := run.kind hn
  obtain rfl : kind = .start i := Option.some.inj (hkind.symm.trans hk')
  have hmem : m.entryAt k' k i ∈ (state k').agenda.toList :=
    ((run.recorded hm hlast hn.le).mem_agenda _).mpr ⟨k, i, hk, hlt, by omega, rfl⟩
  have hrunning : (state k').inFlight i = true :=
    List.any_eq_true.mpr ⟨_, hmem, beq_iff_eq.mpr rfl⟩
  simp [admits, hrunning] at hadmits

/-- **The end of a start is evaluated once**, in the step that completes the duration: `endsAt`
lists it there and in no step before. -/
theorem IsRun.count_endsAt (hm : ofConverted p.convert discount = .ok m)
    (run : m.IsRun n state action) (hlast : (state n).isFailed = false) {i k j : ℕ}
    (hk : m.Starts action k i) (hkj : k ≤ j) (hjd : j < k + m.durationOf i) (hj : j < n) :
    (m.endsAt state action j).count i = if j + 1 = k + m.durationOf i then 1 else 0 := by
  obtain ⟨kind, hkind, hadmits⟩ := run.kind hj
  have hnodup : (m.endsAt state action j).Nodup := by
    rw [endsAt, hkind, Option.elim_some]
    exact nodup_ended hm hkind hadmits (run.recorded hm hlast hj.le).distinct
  rw [hnodup.count]
  refine if_congr ((run.mem_endsAt_iff hm hlast hj).trans
    ⟨?_, fun h => ⟨k, hk, h.symm⟩⟩) rfl rfl
  rintro ⟨k', hk', hend⟩
  -- another start of the action cannot end here: it would overlap the one at `k`
  have hpos := durationOf_pos hm hk'
  rcases Nat.lt_trichotomy k' k with hlt | rfl | hgt
  · have := run.starts_apart hm hlast hk' hk hlt (by omega)
    omega
  · exact hend.symm
  · have := run.starts_apart hm hlast hk hk' hgt (by omega)
    omega

/-- Every entry of a recorded agenda is of an action with extent that is neither fresh nor over. -/
theorem Recorded.entry (hm : ofConverted p.convert discount = .ok m) {s : State}
    (hs : m.Recorded action n s) {e : InFlight} (he : e ∈ s.agenda.toList) :
    (∃ a split, m.singles[e.action]? = some a ∧ a.course = .split split) ∧
      1 ≤ e.ticksLeft ∧ e.ticksLeft ≤ m.durationOf e.action - 1 := by
  obtain ⟨k, i, hstart, hk, hlong, rfl⟩ := (hs.mem_agenda e).mp he
  refine ⟨?_, by simp only [entryAt]; omega, by simp only [entryAt]; omega⟩
  obtain ⟨rfl, split, resources, combinable, hc⟩ := start_cases hm hstart
  exact ⟨_, split, (getElem?_singles hm _).trans hc, rfl⟩

/-- **The agenda is determined by the starts.** In the state that a run of `n` decisions leads to,
unless it has failed:

* `n` ticks have passed, and the rest of the deadline is left;
* the agenda is strictly ascending and lists the pairs of what is left of the duration and the
  action, for each start whose duration is not over;
* hence no action is listed twice, every entry is of an action with extent and has between one tick
  and all but one of its ticks to go, and the state is determined by its atoms, the time left and
  the set of its entries among all states of runs;
* each step expands the starts that it begins and then the ends listed by `endsAt`; an action is
  not started again before its end; the end of a start is evaluated once, in the step that
  completes its duration, and no end is evaluated without such a start. -/
theorem agenda_determined_by_starts (hm : ofConverted p.convert discount = .ok m)
    (run : m.IsRun n state action) (hlast : (state n).isFailed = false) :
    (m.elapsed (state n) = n ∧ n ≤ m.deadline ∧ (state n).remaining = m.deadline - n) ∧
    ((state n).agenda.toList.Pairwise InFlight.Before ∧ ∀ e, e ∈ (state n).agenda.toList ↔
      ∃ k i, m.Starts action k i ∧ k < n ∧ n < k + m.durationOf i ∧
        e = ⟨k + m.durationOf i - n, i⟩) ∧
    ((state n).agenda.toList.map (·.action)).Nodup ∧
    (∀ e ∈ (state n).agenda.toList,
      (∃ a split, m.singles[e.action]? = some a ∧ a.course = .split split) ∧
        1 ≤ e.ticksLeft ∧ e.ticksLeft ≤ m.durationOf e.action - 1) ∧
    (∀ n' state' action', m.IsRun n' state' action' → (state' n').isFailed = false →
      (state n).atoms = (state' n').atoms → (state n).remaining = (state' n').remaining →
        (∀ e, e ∈ (state n).agenda.toList ↔ e ∈ (state' n').agenda.toList) →
          state n = state' n') ∧
    (∀ j < n, ∃ kind, m.kind? (action j) = some kind ∧
      m.transitions (state j) (action j) =
        collect ((fireAll m.core.atoms
          (m.startFirings (m.begun kind) ++ m.endFirings (m.endsAt state action j))
            (state j).atoms).map fun x => (x.1, m.resultOf (state j) kind x.2))) ∧
    (∀ i k k', m.Starts action k i → m.Starts action k' i → k < k' → k' < n →
      k + m.durationOf i ≤ k') ∧
    (∀ i k j, m.Starts action k i → k ≤ j → j < k + m.durationOf i → j < n →
      (m.endsAt state action j).count i = if j + 1 = k + m.durationOf i then 1 else 0) ∧
    (∀ j < n, ∀ i ∈ m.endsAt state action j,
      ∃ k ≤ j, m.Starts action k i ∧ k + m.durationOf i = j + 1) := by
  have hrec := run.recorded hm hlast le_rfl
  have htime := hrec.time
  refine ⟨⟨?_, by omega, by omega⟩, ⟨pairwise_before hrec.distinct, hrec.mem_agenda⟩,
    hrec.distinct, fun e he => hrec.entry hm he, ?_, ?_, ?_, ?_, ?_⟩
  · rw [elapsed]
    omega
  · intro n' state' action' run' hlast' hatoms hremaining hentries
    exact hrec.eq_of_mem_iff (run'.recorded hm hlast' le_rfl) hlast hlast' hatoms hremaining
      hentries
  · intro j hj
    obtain ⟨kind, hkind, hadmits⟩ := run.kind hj
    have hlive := run.not_failed hlast (k := j + 1) hj
    obtain ⟨kind', hkind', -, hleft, -⟩ :=
      split_successor hm (run.applicable j hj) (run.follows j hj) hlive
    obtain rfl : kind' = kind := Option.some.inj (hkind'.symm.trans hkind)
    have hends : m.endsAt state action j = m.ended (state j) kind' := by
      rw [endsAt, hkind, Option.elim_some]
    refine ⟨kind', hkind, ?_⟩
    rw [hends, ← firings_eq]
    exact transitions_eq_collect (run.applicable j hj) hkind ((cost_split hm hkind).trans_le hleft)
  · intro i k k' hk hk' hlt hn
    exact run.starts_apart hm hlast hk hk' hlt hn
  · intro i k j hk hkj hjd hj
    exact run.count_endsAt hm hlast hk hkj hjd hj
  · intro j hj i hi
    obtain ⟨k, hstart, hend⟩ := (run.mem_endsAt_iff hm hlast hj).mp hi
    exact ⟨k, by have := durationOf_pos hm hstart; omega, hstart, hend⟩

end Ends

/-! ### Two actions that overlap -/

/-- Ringing a bell takes two ticks, and atom 0 says that it rings. -/
def ringing : GroundAction ℚ :=
  ⟨"ring", ⟨0⟩, [], 2, [], [(.atStart, ⟨⟨0⟩, true⟩), (.atEnd, ⟨⟨0⟩, false⟩)], [], .empty, true⟩

/-- Boiling water takes four ticks, and atom 1 says that it boils in the end. -/
def boiling : GroundAction ℚ :=
  ⟨"boil", ⟨1⟩, [], 4, [], [(.atEnd, ⟨⟨1⟩, true⟩)], [], .empty, true⟩

/-- A kitchen in which water is boiled and a bell is rung within five ticks. -/
def kitchen : GroundProblem ℚ :=
  ⟨⟨"kitchen", {}, .empty, .empty, [⟨⟨1⟩, true⟩], 5⟩, [ringing, boiling]⟩

/-- The process of the kitchen. -/
def kitchenProcess : Mdp ℚ := splitProcess kitchen.convert 1

theorem ofConverted_kitchen : ofConverted kitchen.convert 1 = .ok kitchenProcess := by
  refine ofConverted_eq_ok_iff.mpr ⟨check_convert_eq_ok_iff.mpr ⟨by norm_num, ?_⟩, rfl⟩
  simp [kitchen, ringing, boiling]

/-- The water is put on, the bell is rung, and then one waits. -/
def kitchenDecision : ℕ → ℕ
  | 0 => 1
  | 1 => 0
  | _ => 2

/-- The states on the way: the bell rings and falls silent while the water is on. -/
def kitchenState : ℕ → State
  | 0 => kitchenProcess.initialState
  | 1 => .running .empty 4 (.ofList [⟨3, 1⟩])
  | 2 => .running (.ofList [⟨0⟩]) 3 (.ofList [⟨1, 0⟩, ⟨2, 1⟩])
  | _ => .running .empty 2 (.ofList [⟨1, 1⟩])

theorem isRun_kitchen : kitchenProcess.IsRun 3 kitchenState kitchenDecision where
  begins := rfl
  applicable k hk :=
    match k, hk with
    | 0, _ => by cbv
    | 1, _ => by cbv
    | 2, _ => by cbv
  follows k hk := by
    have hsuccessors : kitchenProcess.successors (kitchenState k) (kitchenDecision k) =
        [kitchenState (k + 1)] :=
      match k, hk with
      | 0, _ => by cbv
      | 1, _ => by cbv
      | 2, _ => by cbv
    rw [hsuccessors]
    exact List.mem_singleton_self _

/-- After three ticks the water has one tick to go, and the bell has been silenced once. -/
theorem agenda_determined_by_starts_kitchen :
    ofConverted kitchen.convert 1 = .ok kitchenProcess ∧
      kitchenProcess.IsRun 3 kitchenState kitchenDecision ∧
      (kitchenState 3).isFailed = false ∧
      kitchenProcess.elapsed (kitchenState 3) = 3 ∧
      (∀ e, e ∈ (kitchenState 3).agenda.toList ↔
        ∃ k i, kitchenProcess.Starts kitchenDecision k i ∧ k < 3 ∧
          3 < k + kitchenProcess.durationOf i ∧ e = ⟨k + kitchenProcess.durationOf i - 3, i⟩) ∧
      (kitchenProcess.endsAt kitchenState kitchenDecision 2).count 0 = 1 := by
  obtain ⟨⟨htime, -⟩, ⟨-, hagenda⟩, -, -, -, -, -, hcount, -⟩ :=
    agenda_determined_by_starts ofConverted_kitchen isRun_kitchen rfl
  exact ⟨ofConverted_kitchen, isRun_kitchen, rfl, htime, hagenda,
    hcount 0 1 2 rfl (by decide) (by decide) (by decide)⟩

end Mdp

end DurativePlanning
