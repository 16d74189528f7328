import DurativePlanning.Proofs.Mdp.Built
import DurativePlanning.Proofs.Mdp.Step

/-!
# Runs

A run takes decisions from the initial state on and moves to one of the listed successors each
time. This module fixes what a run is, and says what a single decision of split mode does to the
time left and to the agenda.

* `Mdp.IsRun`: the states and decisions of a run of a given length.
* `Mdp.Reachable`: the states to which any sequence of decisions can lead.
* `Mdp.kind?_split_cases`: the three kinds of decision in split mode.
* `Mdp.split_successor`: time and agenda after one decision of split mode.
-/

namespace DurativePlanning

variable {α : Type}

namespace Mdp

/-- The ticks from the start to the end of the action at a position. -/
def durationOf (m : Mdp α) (i : ℕ) : ℕ := (m.singles[i]?).elim 0 ConvertedAction.duration

variable [Arithmetic α]

/-- A **run** of `n` decisions: it begins in the initial state, each decision can be taken in the
state before it, and the next state is one of the listed successors. -/
structure IsRun (m : Mdp α) (n : ℕ) (state : ℕ → State) (action : ℕ → ℕ) : Prop where
  begins : state 0 = m.initialState
  applicable : ∀ k < n, m.isApplicable (state k) (action k) = true
  follows : ∀ k < n, state (k + 1) ∈ m.successors (state k) (action k)

/-- The states to which some decisions can lead from `initialState`, whether they can be taken or
change nothing. -/
inductive Reachable (m : Mdp α) : State → Prop
  | initial : Reachable m m.initialState
  | step {s t : State} (action : ℕ) : Reachable m s → t ∈ m.successors s action → Reachable m t

/-- A run has not failed before its last state: nothing can be decided after a failure. -/
theorem IsRun.not_failed {m : Mdp α} {n k : ℕ} {state : ℕ → State} {action : ℕ → ℕ}
    (run : m.IsRun n state action) (hlast : (state n).isFailed = false) (hk : k ≤ n) :
    (state k).isFailed = false := by
  rcases hk.lt_or_eq with hlt | rfl
  · exact (isApplicable_iff.mp (run.applicable k hlt)).1
  · exact hlast

/-! ### One decision of split mode -/

section Split

variable {p : ConvertedProblem α} {discount : α} {m : Mdp α}

/-- **The three kinds of decision** in split mode: `start` of an action with extent, `instant` for
an action without extent, and `wait`. -/
theorem kind?_split_cases (hm : ofConverted p discount = .ok m) {a : ℕ} {kind : ActionKind}
    (hkind : m.kind? a = some kind) :
    (∃ action resources combinable,
      p.actions[a]? = some ⟨.split action, resources, combinable⟩ ∧ kind = .start a) ∨
    (∃ event resources combinable,
      p.actions[a]? = some ⟨.instant event, resources, combinable⟩ ∧ kind = .instant a) ∨
    kind = .wait := by
  rw [kind?_ofConverted hm] at hkind
  split at hkind
  · obtain ⟨⟨course, resources, combinable⟩, hc, rfl⟩ := Option.map_eq_some_iff.mp hkind
    cases course with
    | instant event => exact Or.inr (Or.inl ⟨event, resources, combinable, hc, rfl⟩)
    | split action => exact Or.inl ⟨action, resources, combinable, hc, rfl⟩
  · split at hkind
    · exact Or.inr (Or.inr (Option.some.inj hkind).symm)
    · exact absurd hkind (by simp)

/-- A decision that is a `start` has the position of an action with extent. -/
theorem start_cases (hm : ofConverted p discount = .ok m) {a i : ℕ}
    (hkind : m.kind? a = some (.start i)) :
    i = a ∧ ∃ action resources combinable,
      p.actions[a]? = some ⟨.split action, resources, combinable⟩ := by
  rcases kind?_split_cases hm hkind with ⟨action, resources, combinable, hc, h⟩ |
    ⟨_, _, _, -, h⟩ | h
  · exact ⟨ActionKind.start.inj h, action, resources, combinable, hc⟩
  · exact absurd h (by simp)
  · exact absurd h (by simp)

/-- The decision at the position of an action without extent is `instant`. -/
theorem kind?_of_instant (hm : ofConverted p discount = .ok m) {i : ℕ} {event : Event α}
    {resources : AtomSet} {combinable : Bool}
    (ha : p.actions[i]? = some ⟨.instant event, resources, combinable⟩) :
    m.kind? i = some (.instant i) := by
  rw [kind?_ofConverted hm, if_pos (List.getElem?_eq_some_iff.mp ha).1, ha]
  rfl

/-- The decision at the position of an action with extent is `start`. -/
theorem kind?_of_split (hm : ofConverted p discount = .ok m) {i : ℕ} {action : SplitAction α}
    {resources : AtomSet} {combinable : Bool}
    (ha : p.actions[i]? = some ⟨.split action, resources, combinable⟩) :
    m.kind? i = some (.start i) := by
  rw [kind?_ofConverted hm, if_pos (List.getElem?_eq_some_iff.mp ha).1, ha]
  rfl

/-- The last decision is `wait`. -/
theorem kind?_length (hm : ofConverted p discount = .ok m) :
    m.kind? p.actions.length = some .wait := by
  rw [kind?_ofConverted hm, if_neg (lt_irrefl _), if_pos rfl]

/-- `cost` of every decision of split mode is one tick. -/
theorem cost_split (hm : ofConverted p discount = .ok m) {a : ℕ} {kind : ActionKind}
    (hkind : m.kind? a = some kind) : m.cost kind = 1 := by
  rcases kind?_split_cases hm hkind with ⟨_, _, _, -, rfl⟩ | ⟨_, _, _, -, rfl⟩ | rfl
  all_goals rfl

/-- The actions of a process of split mode are those of the problem. -/
theorem getElem?_singles (hm : ofConverted p discount = .ok m) (i : ℕ) :
    m.singles[i]? = p.actions[i]? := by
  obtain ⟨-, rfl⟩ := ofConverted_eq_ok_iff.mp hm
  exact List.getElem?_toArray

/-- A decision that starts an action adds one entry, with the whole duration to go. -/
theorem entering_start (hm : ofConverted p discount = .ok m) {a i : ℕ}
    (hkind : m.kind? a = some (.start i)) : m.entering (.start i) = [⟨m.durationOf i, i⟩] := by
  obtain ⟨rfl, action, resources, combinable, hc⟩ := start_cases hm hkind
  simp only [entering, durationOf, getElem?_singles hm, hc, Option.elim_some]
  rfl

/-- `entries` that compete for a tick: one of an action that starts, with its whole duration to go,
and those of the agenda. -/
theorem mem_entries (hm : ofConverted p discount = .ok m) {s : State} {a : ℕ} {kind : ActionKind}
    (hkind : m.kind? a = some kind) {e : InFlight} :
    e ∈ m.entries s kind ↔
      (∃ i, kind = .start i ∧ e = ⟨m.durationOf i, i⟩) ∨ e ∈ s.agenda.toList := by
  rw [entries, List.mem_append]
  refine or_congr_left ?_
  cases kind with
  | start i => simp [entering_start hm hkind]
  | instant i | wait | single i | combined j => simp [entering]

/-- The ends that a decision of split mode evaluates: those that are due with the tick. -/
theorem ended_split (hm : ofConverted p discount = .ok m) {a : ℕ} {kind : ActionKind}
    (hkind : m.kind? a = some kind) (s : State) :
    m.ended s kind = (Agenda.ofList ((m.entries s kind).filter fun e =>
      decide (e.ticksLeft ≤ 1))).toList.map (·.action) := by
  rcases kind?_split_cases hm hkind with ⟨_, _, _, -, rfl⟩ | ⟨_, _, _, -, rfl⟩ | rfl
  all_goals rfl

/-- `ended` lists the actions with an entry of at most one tick left. -/
theorem mem_ended_iff (hm : ofConverted p discount = .ok m) {s : State} {a i : ℕ}
    {kind : ActionKind} (hkind : m.kind? a = some kind) :
    i ∈ m.ended s kind ↔ ∃ e ∈ m.entries s kind, e.ticksLeft ≤ 1 ∧ e.action = i := by
  simp [ended_split hm hkind, and_assoc]

/-- The agenda after a decision of split mode: a tick is taken from every entry that goes on. -/
theorem nextAgenda_split (hm : ofConverted p discount = .ok m) {a : ℕ} {kind : ActionKind}
    (hkind : m.kind? a = some kind) (s : State) :
    m.nextAgenda s kind = .ofList
      (((m.entries s kind).filter fun e => decide (1 < e.ticksLeft)).map InFlight.tick) := by
  rw [nextAgenda_eq_carried]
  rcases kind?_split_cases hm hkind with ⟨_, _, _, -, rfl⟩ | ⟨_, _, _, -, rfl⟩ | rfl
  all_goals rfl

/-- **Time and agenda after one decision** of split mode that does not fail: one tick has passed,
and every entry that had more than one tick to go has one less. It is the step that all invariants
of runs are derived from. -/
theorem split_successor (hm : ofConverted p discount = .ok m) {s t : State} {a : ℕ}
    (happ : m.isApplicable s a = true) (ht : t ∈ m.successors s a) (hfail : t.isFailed = false) :
    ∃ kind, m.kind? a = some kind ∧ m.admits s kind = true ∧ 1 ≤ s.remaining ∧
      t.remaining = s.remaining - 1 ∧
      t.agenda = .ofList (((m.entries s kind).filter fun e =>
        decide (1 < e.ticksLeft)).map InFlight.tick) := by
  rcases mem_successors ht with ⟨hnot, -⟩ | ⟨-, rfl⟩ |
    ⟨kind, -, hkind, hadmits, hcost, atoms, -, rfl⟩
  · exact absurd happ (by simp [hnot])
  · exact absurd hfail (by simp [State.isFailed])
  · rw [cost_split hm hkind] at hcost
    refine ⟨kind, hkind, hadmits, hcost, ?_, ?_⟩
    · rw [resultOf, cost_split hm hkind]
      rfl
    · exact nextAgenda_split hm hkind s

end Split

end Mdp

end DurativePlanning
