import DurativePlanning.Proofs.Mdp.Agenda
import DurativePlanning.Proofs.Mdp.Built
import DurativePlanning.Proofs.Mdp.Chance
import DurativePlanning.Proofs.Weights
import Mathlib.Data.Rat.Floor

/-!
# A Decision as a Probabilistic Program

A decision is described here as a sequence of random steps on a set of atoms, without lists of
branches: begin the chosen actions in order, then end in order the actions that are due, drawing
one outcome for each group of each event. The transition system expands such a sequence into a
list of weighted successors, and this module shows that nothing is lost on the way.

* `Event.program`, `Event.guardedProgram`: one event.
* `Mdp.program`: one decision, the agenda included.
* `ofList_fireAll`: expanding events branch by branch gives the weights of running them in sequence.
* `transitions_list_program`: the listed successors are the results of the program, each once and
  with its probability.
-/

namespace DurativePlanning

variable {K : Type} [Field K]

/-! ### The program of an event -/

/-- One outcome, drawn by the law of a group where `holds` is true. -/
noncomputable def EffectGroup.draw (g : EffectGroup K) (holds : GroundFluent → Bool) :
    Weights K (Outcome K) :=
  .ofList ((g.law.select holds g.bindings).map fun o => (o.prob, o))

/-- Draws an outcome of a group and assigns its `literals`. -/
noncomputable def EffectGroup.program (g : EffectGroup K) (holds : GroundFluent → Bool)
    (s : AtomSet) : Weights K AtomSet := do
  let o ← g.draw holds
  return s.assignAll (g.literals o)

/-- **An event**: its effects in order, and then one independent draw for each group. Every law
reads the set after the effects, whatever earlier groups have drawn. -/
noncomputable def Event.program (table : AtomTable) (e : Event K) (s : AtomSet) :
    Weights K AtomSet :=
  let after := s.assignAll e.effects
  e.groups.foldlM (fun t g => g.program (table.holdsIn after) t) after

/-- `program` of an event that does nothing where its conditions fail. -/
noncomputable def Event.guardedProgram (table : AtomTable) (e : Event K) (s : AtomSet) :
    Weights K AtomSet :=
  if s.satisfiesAll e.conditions then e.program table s else pure s

/-- The program of an event that may be guarded. -/
noncomputable def Firing.program (table : AtomTable) (f : Firing K) (s : AtomSet) :
    Weights K AtomSet :=
  if f.guarded then f.event.guardedProgram table s else f.event.program table s

/-! ### The program of a decision -/

namespace Mdp

/-- Begins actions in order: the `program` of each start event, unguarded. -/
noncomputable def beginAll (m : Mdp K) (actions : List ℕ) (s : AtomSet) : Weights K AtomSet :=
  actions.foldlM (fun t i => (m.singles[i]?).elim (pure t) fun a =>
    a.start.program m.core.atoms t) s

/-- Ends actions in order: the `guardedProgram` of each end event. -/
noncomputable def endAll (m : Mdp K) (actions : List ℕ) (s : AtomSet) : Weights K AtomSet :=
  actions.foldlM (fun t i => ((m.singles[i]?).bind (·.finish?)).elim (pure t) fun e =>
    e.guardedProgram m.core.atoms t) s

/-- **A decision as a program**: those of `begun` are begun, those of `ended` are ended, and the
time and the agenda go on. -/
noncomputable def program (m : Mdp K) (s : State) (kind : ActionKind) : Weights K State := do
  let atoms ← m.beginAll (m.begun kind) s.atoms
  let atoms ← m.endAll (m.ended s kind) atoms
  return .running atoms (s.remaining - m.cost kind) (m.carried s kind)

/-- `beginAll` begins the first action first. -/
theorem beginAll_cons (m : Mdp K) (i : ℕ) (rest : List ℕ) (s : AtomSet) :
    m.beginAll (i :: rest) s =
      (m.singles[i]?).elim (pure s) (fun a => a.start.program m.core.atoms s) >>=
        m.beginAll rest := by
  rw [beginAll, List.foldlM_cons]
  rfl

/-- `endAll` ends the first action first. -/
theorem endAll_cons (m : Mdp K) (i : ℕ) (rest : List ℕ) (s : AtomSet) :
    m.endAll (i :: rest) s =
      ((m.singles[i]?).bind (·.finish?)).elim (pure s)
        (fun e => e.guardedProgram m.core.atoms s) >>= m.endAll rest := by
  rw [endAll, List.foldlM_cons]
  rfl

/-- Running `startFirings` in order is `beginAll`. -/
theorem foldlM_startFirings (m : Mdp K) (actions : List ℕ) (s : AtomSet) :
    (m.startFirings actions).foldlM (fun t f => f.program m.core.atoms t) s =
      m.beginAll actions s := by
  induction actions generalizing s with
  | nil => rfl
  | cons i rest ih =>
      rw [startFirings_cons, List.foldlM_append, beginAll_cons]
      cases m.singles[i]? with
      | none => simpa using ih s
      | some a =>
          simp only [Option.toList_some, List.map_cons, List.map_nil, List.foldlM_cons,
            List.foldlM_nil, bind_pure, Option.elim_some]
          exact bind_congr ih

/-- Running `endFirings` in order is `endAll`. -/
theorem foldlM_endFirings (m : Mdp K) (actions : List ℕ) (s : AtomSet) :
    (m.endFirings actions).foldlM (fun t f => f.program m.core.atoms t) s =
      m.endAll actions s := by
  induction actions generalizing s with
  | nil => rfl
  | cons i rest ih =>
      rw [endFirings_cons, List.foldlM_append, endAll_cons]
      cases (m.singles[i]?).bind (·.finish?) with
      | none => simpa using ih s
      | some e =>
          simp only [Option.toList_some, List.map_cons, List.map_nil, List.foldlM_cons,
            List.foldlM_nil, bind_pure, Option.elim_some]
          exact bind_congr ih

end Mdp

variable [LinearOrder K] [IsStrictOrderedRing K] [FloorSemiring K]

/-! ### Draws -/

/-- `distribution` of a group, with its literals assigned, is the `program` of the group. -/
theorem EffectGroup.ofList_distribution {g : EffectGroup K} (hg : g.law.IsNearlyDistribution)
    (holds : GroundFluent → Bool) (s : AtomSet) :
    Weights.ofList ((g.distribution holds).outcomes.map fun x => (x.1, s.assignAll x.2)) =
      g.program holds s := by
  have hnonneg : ∀ x ∈ (g.law.select holds g.bindings).map fun o => (o.prob, g.literals o),
      0 ≤ x.1 := by
    intro x hx
    obtain ⟨o, ho, rfl⟩ := List.mem_map.mp hx
    exact (hg _ (g.law.select_mem_branches holds g.bindings)).1 o ho
  have hlist : (g.law.select holds g.bindings).map (fun o => (o.prob, g.literals o)) =
      ((g.law.select holds g.bindings).map fun o => (o.prob, o)).map fun x =>
        (x.1, g.literals x.2) := by
    rw [List.map_map]
    rfl
  rw [Weights.ofList_map, distribution, Distribution.ofOutcomes,
    Weights.ofList_filter_pos hnonneg, hlist, Weights.ofList_map, EffectGroup.program, draw,
    bind_pure_comp, Functor.map_map]

/-- `product` with one more group draws for it last. -/
theorem Distribution.ofList_product (d : Distribution K) {g : EffectGroup K}
    (hg : g.law.IsNearlyDistribution) (holds : GroundFluent → Bool) (s : AtomSet) :
    Weights.ofList ((d.product (g.distribution holds)).outcomes.map fun x =>
        (x.1, s.assignAll x.2)) =
      Weights.ofList (d.outcomes.map fun x => (x.1, s.assignAll x.2)) >>= g.program holds := by
  have hlist : (d.product (g.distribution holds)).outcomes.map (fun x => (x.1, s.assignAll x.2)) =
      (d.outcomes.map fun x => (x.1, s.assignAll x.2)).flatMap fun x =>
        ((g.distribution holds).outcomes.map fun y => (y.1, x.2.assignAll y.2)).map fun y =>
          (x.1 * y.1, y.2) := by
    simp [product, List.map_flatMap, List.flatMap_map, Function.comp_def,
      AtomSet.assignAll_append]
  rw [hlist, Weights.ofList_flatMap _ fun t : AtomSet =>
    (g.distribution holds).outcomes.map fun y => (y.1, t.assignAll y.2)]
  exact bind_congr fun t => EffectGroup.ofList_distribution hg holds t

/-- `jointDistribution` of groups is the sequence of their programs, all of which read the same
set. -/
theorem ofList_jointDistribution {groups : List (EffectGroup K)}
    (hgroups : ∀ g ∈ groups, g.law.IsNearlyDistribution) (holds : GroundFluent → Bool)
    (s : AtomSet) :
    Weights.ofList ((jointDistribution groups holds).outcomes.map fun x =>
        (x.1, s.assignAll x.2)) =
      groups.foldlM (fun t g => g.program holds t) s := by
  suffices H : ∀ d : Distribution K,
      Weights.ofList ((groups.foldl (fun joint g => joint.product (g.distribution holds))
        d).outcomes.map fun x => (x.1, s.assignAll x.2)) =
      Weights.ofList (d.outcomes.map fun x => (x.1, s.assignAll x.2)) >>= fun t =>
        groups.foldlM (fun t g => g.program holds t) t by
    refine (H .certain).trans ?_
    simp [Distribution.certain, AtomSet.assignAll]
  induction groups with
  | nil => intro d; simp
  | cons g rest ih =>
      intro d
      rw [List.forall_mem_cons] at hgroups
      rw [List.foldl_cons, ih hgroups.2, Distribution.ofList_product d hgroups.1, bind_assoc]
      simp only [List.foldlM_cons]

/-! ### Events -/

/-- `Event.outcomes` are the weights of `Event.program`. -/
theorem Event.ofList_outcomes {table : AtomTable} {e : Event K}
    (he : ∀ g ∈ e.groups, g.law.IsNearlyDistribution) (s : AtomSet) :
    Weights.ofList (e.outcomes table s) = e.program table s :=
  ofList_jointDistribution he _ _

/-- `Firing.outcomes` are the weights of `Firing.program`, guarded or not. -/
theorem Firing.ofList_outcomes {table : AtomTable} {f : Firing K}
    (hf : ∀ g ∈ f.event.groups, g.law.IsNearlyDistribution) (s : AtomSet) :
    Weights.ofList (f.outcomes table s) = f.program table s := by
  rw [outcomes, program, Event.guardedProgram]
  cases f.guarded <;> cases s.satisfiesAll f.event.conditions <;>
    simp [Event.ofList_outcomes hf]

/-- **Expanding events branch by branch** gives the weights of running them in sequence: `fireAll`
is `foldlM` of the programs, by induction on the events, from any weighted sets. -/
theorem ofList_fireAll {table : AtomTable} {events : List (Firing K)}
    (hevents : ∀ f ∈ events, ∀ g ∈ f.event.groups, g.law.IsNearlyDistribution) (s : AtomSet) :
    Weights.ofList (fireAll table events s) = events.foldlM (fun t f => f.program table t) s := by
  suffices H : ∀ branches : List (K × AtomSet),
      Weights.ofList (events.foldl (fire table) branches) =
        Weights.ofList branches >>= fun t => events.foldlM (fun t f => f.program table t) t from
    (H _).trans (by simp)
  induction events with
  | nil => intro branches; simp
  | cons f rest ih =>
      intro branches
      rw [List.forall_mem_cons] at hevents
      have hfire : Weights.ofList (fire table branches f) =
          Weights.ofList branches >>= f.program table := by
        refine (Weights.ofList_flatMap branches (f.outcomes table)).trans ?_
        exact bind_congr fun t => Firing.ofList_outcomes hevents.1 t
      rw [List.foldl_cons, ih hevents.2, hfire, bind_assoc]
      simp only [List.foldlM_cons]

/-! ### Decisions -/

namespace Mdp

/-- The laws of all events that a decision of a built process fires are `IsNearlyDistribution`. -/
theorem Built.laws_firings {m : Mdp K} (hm : m.Built) (s : State) (kind : ActionKind) :
    ∀ f ∈ m.firings s kind, ∀ g ∈ f.event.groups, g.law.IsNearlyDistribution := by
  intro f hf
  obtain ⟨a, ha, he⟩ := exists_action_of_mem_firings hf
  exact hm.laws a ha f.event he

/-- **Expanding a decision gives the weights of its program**: `transitions` as weights is
`program`, for a decision that can be taken in time. -/
theorem ofList_transitions {m : Mdp K} (hm : m.Built) {s : State} {action : ℕ}
    {kind : ActionKind} (happ : m.isApplicable s action = true)
    (hkind : m.kind? action = some kind) (hcost : m.cost kind ≤ s.remaining) :
    Weights.ofList (m.transitions s action) = m.program s kind := by
  have hfire : Weights.ofList (fireAll m.core.atoms (m.firings s kind) s.atoms) =
      m.beginAll (m.begun kind) s.atoms >>= m.endAll (m.ended s kind) := by
    rw [ofList_fireAll (hm.laws_firings s kind), firings_eq, List.foldlM_append,
      foldlM_startFirings]
    exact bind_congr fun t => foldlM_endFirings m _ t
  rw [transitions_eq_collect happ hkind hcost, Weights.ofList_collect, Weights.ofList_map, hfire,
    program, map_bind]
  simp only [← bind_pure_comp, resultOf, nextAgenda_eq_carried]

/-- **The listed successors are the results of the program.** For a decision that can be taken in
time, they are exactly the states to which the program of the decision gives positive probability,
each listed once and with exactly that probability. -/
theorem transitions_list_program {m : Mdp K} (hm : m.Built) {s : State} {action : ℕ}
    {kind : ActionKind} (happ : m.isApplicable s action = true)
    (hkind : m.kind? action = some kind) (hcost : m.cost kind ≤ s.remaining) :
    (m.successors s action).Nodup ∧
      (∀ t, t ∈ m.successors s action ↔ 0 < (m.program s kind).prob t) ∧
      ∀ p t, (p, t) ∈ m.transitions s action → p = (m.program s kind).prob t := by
  have hnodup : (m.successors s action).Nodup := by
    rw [successors, transitions_eq_collect happ hkind hcost]
    exact nodup_collect _
  have hprob : ∀ p t, (p, t) ∈ m.transitions s action → p = (m.program s kind).prob t := by
    intro p t ht
    rw [← ofList_transitions hm happ hkind hcost, Weights.prob_ofList_of_mem hnodup ht]
  refine ⟨hnodup, fun t => ⟨fun ht => ?_, fun hpos => ?_⟩, hprob⟩
  · obtain ⟨⟨p, t⟩, hmem, rfl⟩ := List.mem_map.mp ht
    rw [← hprob p t hmem]
    exact m.transitions_pos s action _ hmem
  · by_contra hnot
    rw [← ofList_transitions hm happ hkind hcost, Weights.prob_ofList_of_notMem hnot] at hpos
    exact lt_irrefl _ hpos

/-- A toss that takes one tick: atom 0 says that the coin is in the air, and atom 1 is drawn when it
lands. -/
def toss : ConvertedAction ℚ where
  course := .split
    { name := "toss"
      start := ⟨"toss@start", [⟨⟨0⟩, false⟩], [⟨⟨0⟩, true⟩], []⟩
      finish := ⟨"toss@end", [⟨⟨0⟩, true⟩], [⟨⟨0⟩, false⟩],
        [⟨[⟨1⟩], .coin (1 / 3) (2 / 3), []⟩]⟩
      duration := 1 }
  resources := .empty
  combinable := true

/-- The process whose only action is the toss. -/
def tossProcess : Mdp ℚ := splitProcess ⟨⟨"toss", {}, .empty, .empty, [⟨⟨1⟩, true⟩], 2⟩, [toss]⟩ 1

theorem tossProcess_built : tossProcess.Built := by
  refine Built.split (ofConverted_eq_ok_iff.mpr ⟨check_eq_ok_iff.mpr ⟨by norm_num, ?_⟩, rfl⟩)
  have hlaw : (Law.coin (1 / 3 : ℚ) (2 / 3)).IsNearlyDistribution :=
    Law.isNearlyDistribution_coin (by norm_num) (by norm_num) (by norm_num)
  simpa [toss, ConvertedAction.events, ConvertedAction.start, ConvertedAction.finish?] using hlaw

/-- The state after the toss, with one tick left. -/
def landed (atoms : AtomSet) : State := .running atoms 1 .empty

/-- The toss ends with the tick in which it begins: heads are listed with `1 / 3` and tails with
`2 / 3`, which are the probabilities of the program, and nothing else has any. -/
theorem transitions_list_program_toss :
    let heads := landed (AtomSet.empty.insert ⟨1⟩)
    let tails := landed .empty
    let program := tossProcess.program tossProcess.initialState (.start 0)
    tossProcess.isApplicable tossProcess.initialState 0 = true ∧
      tossProcess.kind? 0 = some (.start 0) ∧
      tossProcess.cost (.start 0) ≤ tossProcess.initialState.remaining ∧
      tossProcess.transitions tossProcess.initialState 0 = [(1 / 3, heads), (2 / 3, tails)] ∧
      heads ≠ tails ∧ program.prob heads = 1 / 3 ∧ program.prob tails = 2 / 3 ∧
      ∀ t, 0 < program.prob t ↔ t = heads ∨ t = tails := by
  intro heads tails program
  have hlist : tossProcess.transitions tossProcess.initialState 0 =
      [(1 / 3, heads), (2 / 3, tails)] := by decide +kernel
  have hsuccessors : tossProcess.successors tossProcess.initialState 0 = [heads, tails] := by
    rw [successors, hlist]
    rfl
  have happ : tossProcess.isApplicable tossProcess.initialState 0 = true := rfl
  have hkind : tossProcess.kind? 0 = some (.start 0) := rfl
  have hcost : tossProcess.cost (.start 0) ≤ tossProcess.initialState.remaining := by decide
  obtain ⟨hnodup, hmem, hprob⟩ := transitions_list_program tossProcess_built happ hkind hcost
  rw [hsuccessors] at hnodup
  rw [hlist] at hprob
  refine ⟨happ, hkind, hcost, hlist, ?_, (hprob _ heads (by simp)).symm,
    (hprob _ tails (by simp)).symm, fun t => ?_⟩
  · exact List.ne_of_not_mem_cons (List.nodup_cons.mp hnodup).1
  · rw [← hmem t, hsuccessors]
    simp

end Mdp

end DurativePlanning
