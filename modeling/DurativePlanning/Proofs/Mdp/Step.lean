import DurativePlanning.Mdp.Basic
import DurativePlanning.Proofs.Mdp.Agenda
import DurativePlanning.Proofs.Mdp.Event
import Mathlib.Algebra.GroupWithZero.Nat

/-!
# What One Decision Can Do

Every decision that can be taken in time has the same form in both modes: some events are expanded
on the atoms of the state, and each result becomes a state with the time left and the agenda after
the decision. This module says so once; what later modules need to know of a step is derived from
it.

* `Mdp.firings`, `Mdp.nextAgenda`: the events of a decision, and the agenda after it.
* `Mdp.drawCount`: the number of groups of the events that a decision may fire.
* `Mdp.transitions_eq_collect`: the successors of a decision that can be taken in time.
* `Mdp.mem_successors`: the three ways in which a state is a successor.
-/

namespace DurativePlanning

variable {α : Type}

namespace Mdp

/-- The events that a decision expands, in order. -/
def firings (m : Mdp α) (s : State) : ActionKind → List (Firing α)
  | .single i => macroEvents (m.singles[i]?).toList
  | .combined j => (m.combinations[j]?).elim [] fun c => macroEvents (m.partsOf c)
  | kind => m.splitEvents s.agenda kind

/-- The agenda after a decision: what goes on of the agenda after its start, and nothing in
combination mode. -/
def nextAgenda (m : Mdp α) (s : State) : ActionKind → Agenda
  | .single _ | .combined _ => .empty
  | kind => (m.agendaAfter s.agenda kind).pending

/-- The state after a decision in which the atoms of `x` have been reached. -/
def resultOf (m : Mdp α) (s : State) (kind : ActionKind) (atoms : AtomSet) : State :=
  .running atoms (s.remaining - m.cost kind) (m.nextAgenda s kind)

/-- `resultOf` takes different sets of atoms to different states. -/
theorem injective_resultOf (m : Mdp α) (s : State) (kind : ActionKind) :
    Function.Injective (m.resultOf s kind) :=
  fun _ _ he => (State.running.inj he).1

/-! ### The actions of a decision -/

/-- The actions that a decision begins, in order; `wait` begins none. -/
def begun (m : Mdp α) : ActionKind → List ℕ
  | .start i | .instant i | .single i => [i]
  | .wait => []
  | .combined j => (m.combinations[j]?).elim [] Combination.parts

/-- The entry that a decision adds to the agenda. -/
def entering (m : Mdp α) : ActionKind → List InFlight
  | .start i =>
    match m.singles[i]? with
    | some ⟨.split action, _, _⟩ => [⟨action.duration, i⟩]
    | _ => []
  | _ => []

/-- The entries that compete for a tick: the one that a decision adds, and those of the agenda. -/
def entries (m : Mdp α) (s : State) (kind : ActionKind) : List InFlight :=
  m.entering kind ++ s.agenda.toList

/-- The actions whose ends are evaluated in a decision, in order: those run to completion, or those
that are due with this tick by ticks left and then by position. -/
def ended (m : Mdp α) (s : State) : ActionKind → List ℕ
  | .single i => [i]
  | .combined j => (m.combinations[j]?).elim [] Combination.parts
  | kind =>
    (Agenda.ofList ((m.entries s kind).filter fun e => decide (e.ticksLeft ≤ 1))).toList.map
      (·.action)

/-- The agenda after a decision: actions run to completion leave nothing behind, and a tick is
taken from every entry that is not due. -/
def carried (m : Mdp α) (s : State) : ActionKind → Agenda
  | .single _ | .combined _ => .empty
  | kind =>
    .ofList (((m.entries s kind).filter fun e => decide (1 < e.ticksLeft)).map InFlight.tick)

/-- The start events of actions in order, which are not guarded. -/
def startFirings (m : Mdp α) (actions : List ℕ) : List (Firing α) :=
  (actions.filterMap (m.singles[·]?)).map fun a => ⟨a.start, false⟩

/-- The guarded end events of actions in order; an action without extent has none. -/
def endFirings (m : Mdp α) (actions : List ℕ) : List (Firing α) :=
  (actions.filterMap fun i => (m.singles[i]?).bind (·.finish?)).map fun e => ⟨e, true⟩

theorem startFirings_nil (m : Mdp α) : m.startFirings [] = [] := rfl

/-- `startFirings` lists the start of the first action first. -/
theorem startFirings_cons (m : Mdp α) (i : ℕ) (rest : List ℕ) :
    m.startFirings (i :: rest) =
      (m.singles[i]?).toList.map (fun a => ⟨a.start, false⟩) ++ m.startFirings rest := by
  simp only [startFirings, List.filterMap_cons]
  cases m.singles[i]? <;> rfl

/-- `startFirings` of one action is its start. -/
theorem startFirings_singleton {m : Mdp α} {i : ℕ} {a : ConvertedAction α}
    (ha : m.singles[i]? = some a) : m.startFirings [i] = [⟨a.start, false⟩] := by
  rw [startFirings_cons, ha]
  rfl

/-- `endFirings` lists the end of the first action first, if it has one. -/
theorem endFirings_cons (m : Mdp α) (i : ℕ) (rest : List ℕ) :
    m.endFirings (i :: rest) =
      ((m.singles[i]?).bind (·.finish?)).toList.map (fun e => ⟨e, true⟩) ++
        m.endFirings rest := by
  simp only [endFirings, List.filterMap_cons]
  cases (m.singles[i]?).bind (·.finish?) <;> rfl

/-- An action that starts competes for the tick, with its whole duration to go. -/
theorem entries_start {m : Mdp α} {i : ℕ} {action : SplitAction α} {resources : AtomSet}
    {combinable : Bool} (ha : m.singles[i]? = some ⟨.split action, resources, combinable⟩)
    (s : State) : m.entries s (.start i) = ⟨action.duration, i⟩ :: s.agenda.toList := by
  rw [entries, entering, ha]
  rfl

/-- `macroEvents` begins all actions and then ends them all. -/
theorem macroEvents_eq (m : Mdp α) (actions : List ℕ) :
    macroEvents (actions.filterMap (m.singles[·]?)) =
      m.startFirings actions ++ m.endFirings actions := by
  rw [macroEvents, startFirings, endFirings]
  congr 1
  rw [← List.filterMap_filterMap, List.map_filterMap]

/-- `agendaAfter` holds the `entries` that compete for the tick. -/
theorem agendaAfter_eq_ofList (m : Mdp α) (s : State) (kind : ActionKind) :
    m.agendaAfter s.agenda kind = .ofList (m.entries s kind) := by
  cases kind with
  | start i =>
      simp only [agendaAfter, entries, entering]
      rcases m.singles[i]? with _ | ⟨_ | action, _, _⟩
      · exact (Agenda.ofList_toList _).symm
      · exact (Agenda.ofList_toList _).symm
      · rfl
  | instant i | wait | single i | combined j => exact (Agenda.ofList_toList _).symm

/-- `nextAgenda` from the `entries` that compete for the tick. -/
theorem nextAgenda_eq_carried (m : Mdp α) (s : State) (kind : ActionKind) :
    m.nextAgenda s kind = m.carried s kind := by
  cases kind with
  | single i | combined j => rfl
  | start i | instant i | wait =>
      simp only [carried, nextAgenda, agendaAfter_eq_ofList, Agenda.pending_ofList]

/-- `endsOf` what is due are the `endFirings` of the actions whose entries are due. -/
theorem endsOf_eq (m : Mdp α) (due : List InFlight) :
    m.endsOf due = m.endFirings (due.map (·.action)) := by
  rw [endsOf, endFirings, List.filterMap_map, List.map_filterMap]
  rfl

/-- **The events of a decision**: `startFirings` of the chosen actions, and then `endFirings` of the
actions that are due, each in order. -/
theorem firings_eq (m : Mdp α) (s : State) (kind : ActionKind) :
    m.firings s kind = m.startFirings (m.begun kind) ++ m.endFirings (m.ended s kind) := by
  have hstart : ∀ i, (m.singles[i]?).toList.map (fun a => ⟨a.start, false⟩) =
      m.startFirings [i] := by
    intro i
    rw [startFirings_cons]
    exact (List.append_nil _).symm
  cases kind with
  | start i | instant i | wait =>
      simp only [firings, splitEvents, eventOf, begun, ended, endsOf_eq, agendaAfter_eq_ofList,
        Agenda.map_action_due, hstart, startFirings_nil]
  | single i =>
      rw [firings, begun, ended, ← macroEvents_eq]
      cases h : m.singles[i]? <;> simp [h]
  | combined j =>
      rw [firings, begun, ended, ← macroEvents_eq]
      cases m.combinations[j]? <;> rfl

/-- Every event of a decision is the start or the end of an action of the process. -/
theorem exists_action_of_mem_firings {m : Mdp α} {s : State} {kind : ActionKind} {f : Firing α}
    (hf : f ∈ m.firings s kind) : ∃ a ∈ m.singles, f.event ∈ a.events := by
  rw [firings_eq, List.mem_append] at hf
  rcases hf with hf | hf
  · obtain ⟨a, ha, rfl⟩ := List.mem_map.mp hf
    obtain ⟨i, -, hi⟩ := List.mem_filterMap.mp ha
    exact ⟨a, Array.mem_of_getElem? hi, List.mem_cons_self⟩
  · obtain ⟨e, he, rfl⟩ := List.mem_map.mp hf
    obtain ⟨i, -, hi⟩ := List.mem_filterMap.mp he
    obtain ⟨a, ha, hfinish⟩ := Option.bind_eq_some_iff.mp hi
    refine ⟨a, Array.mem_of_getElem? ha, List.mem_cons_of_mem _ ?_⟩
    rw [hfinish]
    exact List.mem_singleton_self e

/-! ### Applicability -/

/-- `isApplicable` holds when the process has not failed and the state `admits` the kind of the
decision. -/
theorem isApplicable_iff {m : Mdp α} {s : State} {action : ℕ} :
    m.isApplicable s action = true ↔
      s.isFailed = false ∧ ∃ kind, m.kind? action = some kind ∧ m.admits s kind = true := by
  simp [isApplicable, Option.any_eq_true]

/-- The number of groups of the events that a decision may fire: none if it cannot be taken, or
overruns the time left. -/
def drawCount (m : Mdp α) (s : State) (action : ℕ) : ℕ :=
  (m.kind? action).elim 0 fun kind =>
    if m.isApplicable s action ∧ m.cost kind ≤ s.remaining then
      ((m.firings s kind).map fun f => f.event.groups.length).sum
    else 0

/-- A decision that can be taken in time draws once for each group of each of its `firings`. -/
theorem drawCount_eq {m : Mdp α} {s : State} {action : ℕ} {kind : ActionKind}
    (happ : m.isApplicable s action = true) (hkind : m.kind? action = some kind)
    (hcost : m.cost kind ≤ s.remaining) :
    m.drawCount s action = ((m.firings s kind).map fun f => f.event.groups.length).sum := by
  rw [drawCount, hkind, Option.elim_some, if_pos ⟨happ, hcost⟩]

variable [Arithmetic α]

/-- The states to which a decision can lead, in the order of `transitions`. -/
def successors (m : Mdp α) (s : State) (action : ℕ) : List State :=
  (m.transitions s action).map Prod.snd

/-! ### The form of a step -/

/-- `step` on what a state admits: the `firings` expanded, and equal results taken together. -/
theorem step_eq_collect {m : Mdp α} {s : State} {kind : ActionKind}
    (h : m.admits s kind = true) :
    m.step s (s.remaining - m.cost kind) kind =
      collect ((fireAll m.core.atoms (m.firings s kind) s.atoms).map fun x =>
        (x.1, m.resultOf s kind x.2)) := by
  cases kind with
  | start i | instant i | wait | single i => rfl
  | combined j =>
      obtain ⟨c, hc, -⟩ := (Option.any_eq_true _ _).mp h
      simp only [step, firings, resultOf, hc, Option.elim_some]
      rfl

/-- **The form of a step**: `transitions` of a decision that can be taken, and that the time left
suffices for, are its `firings` expanded and collected. -/
theorem transitions_eq_collect {m : Mdp α} {s : State} {action : ℕ} {kind : ActionKind}
    (happ : m.isApplicable s action = true) (hkind : m.kind? action = some kind)
    (hcost : m.cost kind ≤ s.remaining) :
    m.transitions s action =
      collect ((fireAll m.core.atoms (m.firings s kind) s.atoms).map fun x =>
        (x.1, m.resultOf s kind x.2)) := by
  obtain ⟨-, kind', hkind', hadmits⟩ := isApplicable_iff.mp happ
  obtain rfl : kind' = kind := Option.some.inj (hkind'.symm.trans hkind)
  rw [transitions, hkind']
  simp only [happ, if_true, if_neg (Nat.not_lt.mpr hcost)]
  exact step_eq_collect hadmits

/-- A decision that overruns the time left leads to `failed` with certainty. -/
theorem transitions_eq_failed {m : Mdp α} {s : State} {action : ℕ} {kind : ActionKind}
    (happ : m.isApplicable s action = true) (hkind : m.kind? action = some kind)
    (hcost : s.remaining < m.cost kind) : m.transitions s action = [(1, .failed)] := by
  rw [transitions, hkind]
  simp only [happ, if_true, if_pos hcost]

/-- A decision that cannot be taken changes nothing. -/
theorem transitions_eq_self {m : Mdp α} {s : State} {action : ℕ}
    (happ : m.isApplicable s action = false) : m.transitions s action = [(1, s)] := by
  rw [transitions]
  split
  · rfl
  · simp [happ]

/-- **The three ways of being a successor**: the decision cannot be taken and changes nothing, it
overruns the time left, or its `firings` lead to the atoms of the successor. -/
theorem mem_successors {m : Mdp α} {s t : State} {action : ℕ} (ht : t ∈ m.successors s action) :
    (m.isApplicable s action = false ∧ t = s) ∨
    (m.isApplicable s action = true ∧ t = .failed) ∨
    ∃ kind, m.isApplicable s action = true ∧ m.kind? action = some kind ∧
      m.admits s kind = true ∧ m.cost kind ≤ s.remaining ∧
      ∃ atoms ∈ (fireAll m.core.atoms (m.firings s kind) s.atoms).map Prod.snd,
        t = m.resultOf s kind atoms := by
  cases happ : m.isApplicable s action with
  | false => exact Or.inl ⟨rfl, by simpa [successors, transitions_eq_self happ] using ht⟩
  | true =>
      right
      obtain ⟨-, kind, hkind, hadmits⟩ := isApplicable_iff.mp happ
      rcases Nat.lt_or_ge s.remaining (m.cost kind) with hcost | hcost
      · exact Or.inl ⟨rfl, by simpa [successors, transitions_eq_failed happ hkind hcost] using ht⟩
      · refine Or.inr ⟨kind, rfl, hkind, hadmits, hcost, ?_⟩
        rw [successors, transitions_eq_collect happ hkind hcost, mem_collect, List.map_map] at ht
        obtain ⟨x, hx, rfl⟩ := List.mem_map.mp ht
        exact ⟨x.2, List.mem_map.mpr ⟨x, hx, rfl⟩, rfl⟩

end Mdp

end DurativePlanning
