import DurativePlanning.Proofs.Mdp.MacroStep
import DurativePlanning.Proofs.Problem.Ground
import Mathlib.Data.Rat.Floor

/-!
# Independent Actions

Two actions are independent when neither of them writes an atom that the other one reads or writes.
A combination of two independent actions interleaves their events, and all its interleavings lead to
the same atoms with the same probabilities: the combination does what its parts do one after the
other, in either order, only faster. The proof looks at an event as a draw of literals. The draw
depends on what the event reads, the literals are those that it writes, and so the draws of
independent events may be exchanged.

* `Event.Reads`, `ConvertedAction.Independent`: what an event looks at, and independence.
* `Firing.draws`: an event as a draw of literals.
* `results_swap`, `results_comm`: exchanging two events, and two sequences of events.
* `Mdp.run_in_order`, `Mdp.run_in_reverse`, `Mdp.run_side_by_side`: the two orders of two parts, and
  both at once.
* `Mdp.combination_any_order`: independent parts of a combination can be run in any order.
-/

namespace DurativePlanning

variable {α : Type} {table : AtomTable} {s t : AtomSet}

/-! ### What an event reads -/

/-- The atoms that an event looks at: those of its conditions, and those that the conditions of its
laws mention, bound by `atomOf` with the arguments of the action. -/
def Event.Reads (table : AtomTable) (e : Event α) (x : AtomId) : Prop :=
  (∃ l ∈ e.conditions, l.atom = x) ∨
    ∃ g ∈ e.groups, ∃ τ ∈ g.law.templates, table.atomOf g.bindings τ = some x

/-- Two events are **independent** when neither writes an atom that the other one reads or
writes. -/
structure Event.Independent (table : AtomTable) (e f : Event α) : Prop where
  first : ∀ x, e.Writes x → ¬f.Reads table x ∧ ¬f.Writes x
  second : ∀ x, f.Writes x → ¬e.Reads table x ∧ ¬e.Writes x

namespace ConvertedAction

/-- The atoms that one of the `events` of an action writes. -/
def Writes (a : ConvertedAction α) (x : AtomId) : Prop := ∃ e ∈ a.events, e.Writes x

/-- The atoms that one of the `events` of an action looks at. -/
def Reads (table : AtomTable) (a : ConvertedAction α) (x : AtomId) : Prop :=
  ∃ e ∈ a.events, e.Reads table x

/-- Two actions are **independent** when neither writes an atom that the other one reads or
writes. -/
structure Independent (table : AtomTable) (a b : ConvertedAction α) : Prop where
  first : ∀ x, a.Writes x → ¬b.Reads table x ∧ ¬b.Writes x
  second : ∀ x, b.Writes x → ¬a.Reads table x ∧ ¬a.Writes x

variable {a b : ConvertedAction α}

/-- Independence is symmetric. -/
theorem Independent.symm (h : a.Independent table b) : b.Independent table a :=
  ⟨h.second, h.first⟩

/-- The events of independent actions are independent. -/
theorem Independent.events (h : a.Independent table b) {e f : Event α} (he : e ∈ a.events)
    (hf : f ∈ b.events) : e.Independent table f where
  first x hx :=
    have hnot := h.first x ⟨e, he, hx⟩
    ⟨fun hreads => hnot.1 ⟨f, hf, hreads⟩, fun hwrites => hnot.2 ⟨f, hf, hwrites⟩⟩
  second x hx :=
    have hnot := h.second x ⟨f, hf, hx⟩
    ⟨fun hreads => hnot.1 ⟨e, he, hreads⟩, fun hwrites => hnot.2 ⟨e, he, hwrites⟩⟩

end ConvertedAction

/-! ### Assignments that do not meet -/

namespace AtomSet

/-- What `assignAll` leaves of an atom depends on that atom only. -/
theorem mem_assignAll_congr {x : AtomId} (h : x ∈ s ↔ x ∈ t) (literals : List Literal) :
    x ∈ s.assignAll literals ↔ x ∈ t.assignAll literals := by
  induction literals generalizing s t with
  | nil => exact h
  | cons l rest ih =>
      rw [assignAll_cons, assignAll_cons]
      exact ih (by simp only [mem_assign, h])

/-- **Assignments to different atoms** may be exchanged: `assignAll` of two lists in either order
gives the same set. -/
theorem assignAll_comm {left right : List Literal}
    (h : ∀ l ∈ left, ∀ r ∈ right, l.atom ≠ r.atom) :
    (s.assignAll left).assignAll right = (s.assignAll right).assignAll left := by
  refine ext fun x => ?_
  by_cases hx : ∃ l ∈ left, l.atom = x
  · obtain ⟨l, hl, rfl⟩ := hx
    rw [mem_assignAll_of_forall_ne fun r hr => (h l hl r hr).symm]
    exact mem_assignAll_congr
      (mem_assignAll_of_forall_ne fun r hr => (h l hl r hr).symm).symm left
  · have hleft : ∀ l ∈ left, l.atom ≠ x := fun l hl hlx => hx ⟨l, hl, hlx⟩
    rw [mem_assignAll_of_forall_ne (s := s.assignAll right) hleft]
    exact mem_assignAll_congr (mem_assignAll_of_forall_ne hleft) right

/-- `satisfiesAll` is the same in sets that agree on the atoms of the literals. -/
theorem satisfiesAll_congr {literals : List Literal}
    (h : ∀ l ∈ literals, (l.atom ∈ s ↔ l.atom ∈ t)) :
    s.satisfiesAll literals = t.satisfiesAll literals := by
  induction literals with
  | nil => rfl
  | cons l rest ih =>
      rw [List.forall_mem_cons] at h
      have hfirst : s.contains l.atom = t.contains l.atom := by simp only [contains, h.1]
      have hrest := ih h.2
      simp only [satisfiesAll, List.all_cons, hfirst] at hrest ⊢
      rw [hrest]

end AtomSet

/-! ### Events as draws of literals -/

/-- `Law.select` takes the same branch where the conditions of the law hold alike. -/
theorem Law.select_congr {law : Law α} {holds holds' : GroundFluent → Bool}
    {bindings : List ObjectId}
    (h : ∀ τ ∈ law.templates, ∀ f, τ.bind bindings = some f → holds f = holds' f) :
    law.select holds bindings = law.select holds' bindings := by
  cases law with
  | fixed outcomes => rfl
  | conditional cases otherwise =>
      have happlies : ∀ c ∈ cases, c.applies holds bindings = c.applies holds' bindings := by
        intro c hc
        rw [Bool.eq_iff_iff, LawCase.applies, LawCase.applies, List.all_eq_true, List.all_eq_true]
        refine forall₂_congr fun condition hcondition => ?_
        have hτ : condition.1 ∈ (Law.conditional cases otherwise).templates :=
          List.mem_flatMap.mpr ⟨c, hc, List.mem_map_of_mem hcondition⟩
        rw [conditionHolds, conditionHolds]
        cases hbind : condition.1.bind bindings with
        | none => exact Iff.rfl
        | some f => simp only [h _ hτ f hbind]
      rw [select, select, List.find?_congr happlies]

/-- `holdsIn` of the fluent that a template stands for depends on its atom, if it has one. -/
theorem AtomTable.holdsIn_congr {bindings : List ObjectId} {τ : Template} {f : GroundFluent}
    (hbind : τ.bind bindings = some f)
    (h : ∀ x, table.atomOf bindings τ = some x → (x ∈ s ↔ x ∈ t)) :
    table.holdsIn s f = table.holdsIn t f := by
  rw [AtomTable.holdsIn, AtomTable.holdsIn]
  cases hx : table.lookup f with
  | none => rfl
  | some x =>
      have hatom : table.atomOf bindings τ = some x := by rw [AtomTable.atomOf, hbind]; exact hx
      simp only [Option.any_some, AtomSet.contains, h x hatom]

namespace Firing

variable [Arithmetic α]

/-- **An event as a draw of literals**, which are assigned afterwards: its effects, followed by what
`jointDistribution` draws for its groups. Where the conditions of a guarded event fail there are
none. -/
def draws (table : AtomTable) (f : Firing α) (s : AtomSet) : List (α × List Literal) :=
  if f.guarded && !s.satisfiesAll f.event.conditions then [(1, [])]
  else (jointDistribution f.event.groups
    (table.holdsIn (s.assignAll f.event.effects))).outcomes.map fun x =>
      (x.1, f.event.effects ++ x.2)

/-- `Firing.outcomes` are the assignments of `draws`. -/
theorem outcomes_eq_map_draws (table : AtomTable) (f : Firing α) (s : AtomSet) :
    f.outcomes table s = (f.draws table s).map fun x => (x.1, s.assignAll x.2) := by
  rw [outcomes, draws]
  split
  · rfl
  · simp only [Event.outcomes, List.map_map, Function.comp_def, AtomSet.assignAll_append]

/-- The literals that an event `draws` are for atoms that it writes. -/
theorem writes_of_mem_draws {f : Firing α} {literals : List Literal} {l : Literal}
    (hdraw : literals ∈ (f.draws table s).map Prod.snd) (hl : l ∈ literals) :
    f.event.Writes l.atom := by
  obtain ⟨⟨p, literals⟩, hmem, rfl⟩ := List.mem_map.mp hdraw
  rw [draws] at hmem
  split at hmem
  · obtain ⟨-, rfl⟩ := Prod.mk.inj (List.mem_singleton.mp hmem)
    exact absurd hl List.not_mem_nil
  · obtain ⟨⟨q, drawn⟩, hjoint, he⟩ := List.mem_map.mp hmem
    obtain ⟨-, rfl⟩ := Prod.mk.inj he
    rcases List.mem_append.mp hl with heffect | hdrawn
    · exact Or.inl ⟨l, heffect, rfl⟩
    · exact Or.inr (atom_mem_targets_of_joint hjoint hdrawn)

/-- **What an event draws depends on what it `Reads`.** -/
theorem draws_congr {f : Firing α} (h : ∀ x, f.event.Reads table x → (x ∈ s ↔ x ∈ t)) :
    f.draws table s = f.draws table t := by
  have hconditions : s.satisfiesAll f.event.conditions = t.satisfiesAll f.event.conditions :=
    AtomSet.satisfiesAll_congr fun l hl => h l.atom (Or.inl ⟨l, hl, rfl⟩)
  have hgroups : jointDistribution f.event.groups (table.holdsIn (s.assignAll f.event.effects)) =
      jointDistribution f.event.groups (table.holdsIn (t.assignAll f.event.effects)) := by
    refine List.foldl_ext _ _ _ fun joint g hg => ?_
    rw [EffectGroup.distribution, EffectGroup.distribution, Law.select_congr]
    intro τ hτ fluent hbind
    refine AtomTable.holdsIn_congr hbind fun x hx => ?_
    exact AtomSet.mem_assignAll_congr (h x (Or.inr ⟨g, hg, τ, hτ, hx⟩)) f.event.effects
  rw [draws, draws, hconditions, hgroups]

end Firing

/-! ### Actions that run to completion -/

namespace Mdp

variable {m : Mdp α} {a b : ConvertedAction α} {i : ℕ} {state : State}

/-- The action at a position is **ready** in a state: the decision at this position runs it to
completion, and it can begin. -/
structure Ready (m : Mdp α) (state : State) (i : ℕ) (a : ConvertedAction α) : Prop where
  kind : m.kind? i = some (.single i)
  single : m.singles[i]? = some a
  live : state.isFailed = false
  begins : state.atoms.satisfiesAll a.start.conditions = true

/-- An action that is ready satisfies the conditions of its start. -/
theorem Ready.canBegin (h : m.Ready state i a) : m.canBegin state i = true := by
  rw [Mdp.canBegin, h.single]
  exact h.begins

/-- An action that is ready can be taken. -/
theorem Ready.isApplicable (h : m.Ready state i a) : m.isApplicable state i = true :=
  isApplicable_iff.mpr ⟨h.live, .single i, h.kind, h.canBegin⟩

/-- When a combination can be made, both of its parts are `Ready`. -/
theorem ready_of_combined {action j : ℕ} {c : Combination}
    (hkind : m.kind? action = some (.combined j)) (hc : m.combinations[j]? = some c)
    (hfirst : m.kind? c.first = some (.single c.first))
    (hsecond : m.kind? c.second = some (.single c.second))
    (ha : m.singles[c.first]? = some a) (hb : m.singles[c.second]? = some b)
    (happ : m.isApplicable state action = true) :
    m.Ready state c.first a ∧ m.Ready state c.second b := by
  obtain ⟨hlive, kind, hkind', hadmits⟩ := isApplicable_iff.mp happ
  obtain rfl : kind = .combined j := Option.some.inj (hkind'.symm.trans hkind)
  have hbegins : state.atoms.satisfiesAll a.start.conditions = true ∧
      state.atoms.satisfiesAll b.start.conditions = true := by
    simpa [admits, hc, Combination.parts, Mdp.canBegin, ha, hb] using hadmits
  exact ⟨⟨hfirst, ha, hlive, hbegins.1⟩, ⟨hsecond, hb, hlive, hbegins.2⟩⟩

/-- The start and the guarded end of one action, as combination mode fires them. -/
def runFirings (m : Mdp α) (i : ℕ) : List (Firing α) := m.startFirings [i] ++ m.endFirings [i]

/-- The start that `startFirings` lists for an action is one of its events. -/
theorem event_mem_of_mem_startFirings (ha : m.singles[i]? = some a) {f : Firing α}
    (hf : f ∈ m.startFirings [i]) : f.event ∈ a.events := by
  rw [startFirings_singleton ha, List.mem_singleton] at hf
  subst hf
  exact List.mem_cons_self

/-- The end that `endFirings` lists for an action is one of its events. -/
theorem event_mem_of_mem_endFirings (ha : m.singles[i]? = some a) {f : Firing α}
    (hf : f ∈ m.endFirings [i]) : f.event ∈ a.events := by
  rw [endFirings_cons, ha] at hf
  rcases List.mem_append.mp hf with hf | hf
  · obtain ⟨e, he, rfl⟩ := List.mem_map.mp hf
    exact List.mem_cons_of_mem _ he
  · exact absurd hf List.not_mem_nil

/-- The events that `runFirings` lists for an action are its own. -/
theorem event_mem_of_mem_runFirings (ha : m.singles[i]? = some a) {f : Firing α}
    (hf : f ∈ m.runFirings i) : f.event ∈ a.events :=
  (List.mem_append.mp hf).elim (event_mem_of_mem_startFirings ha) (event_mem_of_mem_endFirings ha)

variable [Arithmetic α]

/-- An action that runs to completion changes only what it `Writes`. -/
theorem mem_iff_of_run (ha : m.singles[i]? = some a)
    (ht : t ∈ (fireAll m.core.atoms (m.runFirings i) s).map Prod.snd) {x : AtomId}
    (hx : ¬a.Writes x) : x ∈ t ↔ x ∈ s := by
  refine foldl_fire_forall (P := fun t => x ∈ t ↔ x ∈ s) ?_ ?_ t ht
  · intro t ht
    rw [List.mem_singleton.mp ht]
  · intro f hf u hu t ht
    rcases Firing.mem_outcomes ht with rfl | ht
    · exact hu
    · have hnot : ¬f.event.Writes x :=
        fun hwrites => hx ⟨f.event, event_mem_of_mem_runFirings ha hf, hwrites⟩
      exact (Event.mem_iff_of_not_writes hnot ht).trans hu

/-- An action can still begin after one that writes nothing that it `Reads`. -/
theorem satisfiesAll_start_of_run (ha : m.singles[i]? = some a)
    (hab : ∀ x, a.Writes x → ¬b.Reads m.core.atoms x)
    (hbegin : s.satisfiesAll b.start.conditions = true)
    (ht : t ∈ (fireAll m.core.atoms (m.runFirings i) s).map Prod.snd) :
    t.satisfiesAll b.start.conditions = true := by
  rw [← hbegin]
  refine AtomSet.satisfiesAll_congr fun l hl => mem_iff_of_run ha ht fun hwrites => ?_
  exact hab l.atom hwrites ⟨b.start, List.mem_cons_self, Or.inl ⟨l, hl, rfl⟩⟩

end Mdp

variable {K : Type} [Field K] [LinearOrder K] [IsStrictOrderedRing K] [FloorSemiring K]

/-! ### Exchanging events -/

/-- The atoms after `fireAll`, with their probabilities. -/
noncomputable def results (table : AtomTable) (events : List (Firing K)) (s : AtomSet) :
    Weights K AtomSet :=
  .ofList (fireAll table events s)

/-- Folding `fire` over events from weighted sets of atoms is one more random step: their `results`
from each of the sets. -/
theorem ofList_foldl_fire (table : AtomTable) (events : List (Firing K))
    (branches : List (K × AtomSet)) :
    Weights.ofList (events.foldl (fire table) branches) =
      Weights.ofList branches >>= results table events := by
  have hfire : ∀ (f : Firing K) (branches : List (K × AtomSet)),
      Weights.ofList (fire table branches f) =
        Weights.ofList branches >>= fun s => Weights.ofList (f.outcomes table s) :=
    fun f branches => Weights.ofList_flatMap branches (f.outcomes table)
  induction events generalizing branches with
  | nil =>
      have hsure : ∀ s, results table ([] : List (Firing K)) s = pure s :=
        fun s => Weights.ofList_singleton s
      rw [List.foldl_nil, bind_congr hsure, bind_pure]
  | cons f rest ih =>
      rw [List.foldl_cons, ih, hfire, bind_assoc]
      refine bind_congr fun s => ?_
      rw [results, fireAll, List.foldl_cons, ih, hfire, Weights.ofList_singleton, pure_bind]

/-- `results` of one sequence of events after the other. -/
theorem results_append (left right : List (Firing K)) (s : AtomSet) :
    results table (left ++ right) s = results table left s >>= results table right := by
  rw [results, fireAll_append, ofList_foldl_fire]
  rfl

/-- One event draws literals and assigns them. -/
theorem results_singleton (f : Firing K) (s : AtomSet) :
    results table [f] s =
      Weights.ofList (f.draws table s) >>= fun literals => pure (s.assignAll literals) := by
  rw [bind_pure_comp, ← Weights.ofList_map, ← Firing.outcomes_eq_map_draws]
  refine (Weights.ofList_flatMap [((1 : K), s)] (f.outcomes table)).trans ?_
  rw [Weights.ofList_singleton, pure_bind]

/-- Two events of which the first writes nothing that the second reads draw both at once, from the
same set, by `draws_congr`. -/
theorem results_pair {f g : Firing K}
    (h : ∀ x, f.event.Writes x → ¬g.event.Reads table x) (s : AtomSet) :
    results table [f, g] s = Weights.ofList (f.draws table s) >>= fun left =>
      Weights.ofList (g.draws table s) >>= fun right =>
        pure ((s.assignAll left).assignAll right) := by
  rw [← List.singleton_append, results_append, results_singleton, bind_assoc]
  refine Weights.ofList_bind_congr fun left hleft => ?_
  have hdraws : g.draws table (s.assignAll left) = g.draws table s :=
    Firing.draws_congr fun x hx => AtomSet.mem_assignAll_of_forall_ne fun l hl hlx =>
      h x (hlx ▸ Firing.writes_of_mem_draws hleft hl) hx
  rw [pure_bind, results_singleton, hdraws]

/-- **Independent events may be exchanged**: both draw from the same set, and their assignments go
to different atoms. -/
theorem results_swap {f g : Firing K} (h : f.event.Independent table g.event) (s : AtomSet) :
    results table [f, g] s = results table [g, f] s := by
  rw [results_pair (fun x hx => (h.first x hx).1), results_pair (fun x hx => (h.second x hx).1),
    Weights.bind_comm]
  refine Weights.ofList_bind_congr fun right hright => ?_
  refine Weights.ofList_bind_congr fun left hleft => ?_
  rw [AtomSet.assignAll_comm]
  intro l hl r hr hlr
  exact (h.first l.atom (Firing.writes_of_mem_draws hleft hl)).2
    (hlr ▸ Firing.writes_of_mem_draws hright hr)

/-- An event may be exchanged with events from which it is independent, by induction on these with
`results_swap`. -/
theorem results_cons_comm {f : Firing K} {events : List (Firing K)}
    (h : ∀ g ∈ events, f.event.Independent table g.event) (s : AtomSet) :
    results table (f :: events) s = results table (events ++ [f]) s := by
  induction events generalizing s with
  | nil => rfl
  | cons g rest ih =>
      rw [List.forall_mem_cons] at h
      calc results table (f :: g :: rest) s
          = results table [f, g] s >>= results table rest := results_append [f, g] rest s
        _ = results table [g, f] s >>= results table rest := by rw [results_swap h.1]
        _ = results table [g] s >>= results table (f :: rest) := by
          rw [← results_append, ← results_append]
          rfl
        _ = results table [g] s >>= results table (rest ++ [f]) := bind_congr (ih h.2)
        _ = results table (g :: rest ++ [f]) s := (results_append [g] (rest ++ [f]) s).symm

/-- **Independent sequences of events may be exchanged**, by induction on the first one with
`results_cons_comm`. -/
theorem results_comm {left right : List (Firing K)}
    (h : ∀ f ∈ left, ∀ g ∈ right, f.event.Independent table g.event) (s : AtomSet) :
    results table (left ++ right) s = results table (right ++ left) s := by
  induction left generalizing s with
  | nil => rw [List.nil_append, List.append_nil]
  | cons f rest ih =>
      rw [List.forall_mem_cons] at h
      calc results table (f :: rest ++ right) s
          = results table [f] s >>= results table (rest ++ right) := results_append [f] _ s
        _ = results table [f] s >>= results table (right ++ rest) := bind_congr (ih h.2)
        _ = results table (f :: right) s >>= results table rest := by
          rw [← results_append, ← results_append]
          rfl
        _ = results table (right ++ [f]) s >>= results table rest := by
          rw [results_cons_comm h.1]
        _ = results table (right ++ f :: rest) s := by
          rw [← results_append, List.append_assoc]
          rfl

/-! ### Actions side by side -/

namespace Mdp

variable {m : Mdp K} {a b : ConvertedAction K} {i j : ℕ} {state : State}

/-- The states of `completed` are the `results` of the events, with some time left. -/
theorem ofList_completed (m : Mdp K) (events : List (Firing K)) (s : AtomSet) (remaining : ℕ) :
    Weights.ofList (m.completed events s remaining) =
      (State.running · remaining .empty) <$> results m.core.atoms events s := by
  rw [completed, Weights.ofList_collect]
  exact Weights.ofList_map (fireAll m.core.atoms events s) (State.running · remaining .empty)

/-- `transitions` of one action that is ready, when the time left suffices for it: the results of
its start and its end. -/
theorem ofList_transitions_run (ha : m.Ready state i a) (hleft : a.span ≤ state.remaining) :
    Weights.ofList (m.transitions state i) =
      (State.running · (state.remaining - a.span) .empty) <$>
        results m.core.atoms (m.runFirings i) state.atoms := by
  rw [transitions_single ha.kind ha.single ha.live ha.begins, if_neg (Nat.not_lt.mpr hleft),
    ofList_completed]
  rfl

/-- The successors of one action that is ready, when the time left suffices for it. -/
theorem mem_successors_run (ha : m.Ready state i a) (hleft : a.span ≤ state.remaining) {t : State}
    (ht : t ∈ m.successors state i) :
    ∃ atoms ∈ (fireAll m.core.atoms (m.runFirings i) state.atoms).map Prod.snd,
      t = .running atoms (state.remaining - a.span) .empty := by
  rw [successors, transitions_single ha.kind ha.single ha.live ha.begins,
    if_neg (Nat.not_lt.mpr hleft), completed, mem_collect, List.map_map] at ht
  obtain ⟨x, hx, rfl⟩ := List.mem_map.mp ht
  exact ⟨x.2, List.mem_map_of_mem hx, rfl⟩

/-- **An action is still ready** after one that writes nothing that it reads. -/
theorem Ready.after (hb : m.Ready state j b) (ha : m.singles[i]? = some a)
    (hab : ∀ x, a.Writes x → ¬b.Reads m.core.atoms x) {atoms : AtomSet}
    (hatoms : atoms ∈ (fireAll m.core.atoms (m.runFirings i) state.atoms).map Prod.snd)
    (remaining : ℕ) : m.Ready (.running atoms remaining .empty) j b where
  kind := hb.kind
  single := hb.single
  live := rfl
  begins := satisfiesAll_start_of_run ha hab hb.begins hatoms

/-- **Two actions one after the other**, when the first writes nothing that the second reads:
`reach` gives the `results` of the events of the first followed by those of the second. -/
theorem reach_run_pair (ha : m.Ready state i a) (hb : m.Ready state j b)
    (hab : ∀ x, a.Writes x → ¬b.Reads m.core.atoms x)
    (hleft : a.span + b.span ≤ state.remaining) :
    m.reach [i, j] state =
      (State.running · (state.remaining - a.span - b.span) .empty) <$>
        results m.core.atoms (m.runFirings i ++ m.runFirings j) state.atoms := by
  have hspan : a.span ≤ state.remaining := (Nat.le_add_right _ _).trans hleft
  rw [reach_cons, ofList_transitions_run ha hspan, results_append, map_bind, bind_map_left]
  refine Weights.ofList_bind_congr fun t ht => ?_
  have hafter := hb.after ha.single hab ht (state.remaining - a.span)
  rw [reach_singleton]
  exact ofList_transitions_run hafter (Nat.le_sub_of_add_le' hleft)

/-- The second of two actions can be taken after the first one, which writes nothing that the second
one reads. -/
theorem isApplicable_of_run (ha : m.Ready state i a) (hb : m.Ready state j b)
    (hab : ∀ x, a.Writes x → ¬b.Reads m.core.atoms x) (hleft : a.span ≤ state.remaining) :
    ∀ t ∈ m.successors state i, m.isApplicable t j = true := by
  intro t ht
  obtain ⟨atoms, hatoms, rfl⟩ := mem_successors_run ha hleft ht
  exact (hb.after ha.single hab hatoms _).isApplicable

/-- **A combination of two actions**: its `transitions` are the `results` of both starts followed by
both ends, when the time left suffices for both. -/
theorem ofList_transitions_combined {action : ℕ} {c : Combination}
    (hkind : m.kind? action = some (.combined j)) (hc : m.combinations[j]? = some c)
    (ha : m.singles[c.first]? = some a) (hb : m.singles[c.second]? = some b)
    (happ : m.isApplicable state action = true) (hleft : max a.span b.span ≤ state.remaining) :
    Weights.ofList (m.transitions state action) =
      (State.running · (state.remaining - max a.span b.span) .empty) <$>
        results m.core.atoms (m.startFirings c.parts ++ m.endFirings c.parts) state.atoms := by
  have hparts : m.partsOf c = [a, b] := by
    rw [partsOf, Combination.parts]
    simp only [List.filterMap_cons, ha, hb, List.filterMap_nil]
  have hcost : m.cost (.combined j) = max a.span b.span := by
    simp only [cost, hc, hparts]
    rfl
  have hfirings : m.firings state (.combined j) =
      m.startFirings c.parts ++ m.endFirings c.parts := by
    simp only [firings_eq, begun, ended, hc, Option.elim_some]
  have hresult : m.resultOf state (.combined j) =
      (State.running · (state.remaining - max a.span b.span) .empty) := by
    funext t
    rw [resultOf, hcost]
    rfl
  rw [transitions_eq_collect happ hkind (hcost.trans_le hleft), Weights.ofList_collect,
    Weights.ofList_map, hfirings, hresult]
  rfl

/-- **The interleaving of a combination of independent actions** may be taken apart: both starts
followed by both ends lead where the actions lead one after the other, because the start of the
second part and the end of the first one may be exchanged. -/
theorem results_parts (c : Combination) (ha : m.singles[c.first]? = some a)
    (hb : m.singles[c.second]? = some b) (hindep : a.Independent m.core.atoms b) (s : AtomSet) :
    results m.core.atoms (m.startFirings c.parts ++ m.endFirings c.parts) s =
      results m.core.atoms (m.runFirings c.first ++ m.runFirings c.second) s := by
  have hstarts :
      m.startFirings c.parts = m.startFirings [c.first] ++ m.startFirings [c.second] := by
    simp only [Combination.parts, startFirings_cons, startFirings_nil, List.append_nil]
  have hends : m.endFirings c.parts = m.endFirings [c.first] ++ m.endFirings [c.second] := by
    have hnil : m.endFirings [] = [] := rfl
    simp only [Combination.parts, endFirings_cons, hnil, List.append_nil]
  -- the second action starts before the first one ends, and these are the two that change places
  have hswap : ∀ s, results m.core.atoms (m.startFirings [c.second] ++ m.endFirings [c.first]) s =
      results m.core.atoms (m.endFirings [c.first] ++ m.startFirings [c.second]) s :=
    results_comm fun f hf g hg => (hindep.symm.events (event_mem_of_mem_startFirings hb hf)
      (event_mem_of_mem_endFirings ha hg))
  have hmiddle : ∀ s, results m.core.atoms ((m.startFirings [c.second] ++ m.endFirings [c.first]) ++
      m.endFirings [c.second]) s = results m.core.atoms ((m.endFirings [c.first] ++
        m.startFirings [c.second]) ++ m.endFirings [c.second]) s := by
    intro s
    rw [results_append, hswap, ← results_append]
  calc results m.core.atoms (m.startFirings c.parts ++ m.endFirings c.parts) s
      = results m.core.atoms (m.startFirings [c.first] ++ ((m.startFirings [c.second] ++
          m.endFirings [c.first]) ++ m.endFirings [c.second])) s := by
        simp only [hstarts, hends, List.append_assoc]
    _ = results m.core.atoms (m.startFirings [c.first] ++ ((m.endFirings [c.first] ++
          m.startFirings [c.second]) ++ m.endFirings [c.second])) s := by
        rw [results_append, bind_congr hmiddle, ← results_append]
    _ = results m.core.atoms (m.runFirings c.first ++ m.runFirings c.second) s := by
        simp only [runFirings, List.append_assoc]

omit [LinearOrder K] [IsStrictOrderedRing K] [FloorSemiring K] in
/-- The `atoms` of states that differ in their atoms only. -/
theorem atoms_map_running (remaining : ℕ) (w : Weights K AtomSet) :
    State.atoms <$> (State.running · remaining .empty) <$> w = w := by
  rw [← comp_map]
  exact id_map w

omit [LinearOrder K] [IsStrictOrderedRing K] [FloorSemiring K] in
/-- The `remaining` time in states that differ in their atoms only. -/
theorem remaining_of_prob_map_running {remaining : ℕ} {w : Weights K AtomSet} {t : State}
    (ht : ((State.running · remaining .empty) <$> w).prob t ≠ 0) : t.remaining = remaining := by
  obtain ⟨atoms, rfl⟩ := Weights.exists_of_prob_map_ne_zero ht
  rfl

/-- **One order of two parts**: the second part can be taken after the first one, together they lead
to the atoms of their events, one sequence after the other, and they take the sum of their
durations. -/
theorem run_in_order (ha : m.Ready state i a) (hb : m.Ready state j b)
    (hab : ∀ x, a.Writes x → ¬b.Reads m.core.atoms x)
    (hleft : a.span + b.span ≤ state.remaining) :
    (m.isApplicable state i = true ∧ ∀ t ∈ m.successors state i, m.isApplicable t j = true) ∧
      State.atoms <$> m.reach [i, j] state =
        results m.core.atoms (m.runFirings i ++ m.runFirings j) state.atoms ∧
      ∀ t, (m.reach [i, j] state).prob t ≠ 0 →
        t.remaining = state.remaining - a.span - b.span := by
  refine ⟨⟨ha.isApplicable, isApplicable_of_run ha hb hab ((Nat.le_add_right _ _).trans hleft)⟩, ?_⟩
  rw [reach_run_pair ha hb hab hleft]
  exact ⟨atoms_map_running _ _, fun _ => remaining_of_prob_map_running⟩

/-- **The other order**: independent parts lead to the same atoms when the second one comes first,
and they take as long. -/
theorem run_in_reverse (ha : m.Ready state i a) (hb : m.Ready state j b)
    (hindep : a.Independent m.core.atoms b) (hleft : a.span + b.span ≤ state.remaining) :
    (m.isApplicable state j = true ∧ ∀ t ∈ m.successors state j, m.isApplicable t i = true) ∧
      State.atoms <$> m.reach [j, i] state =
        results m.core.atoms (m.runFirings i ++ m.runFirings j) state.atoms ∧
      ∀ t, (m.reach [j, i] state).prob t ≠ 0 →
        t.remaining = state.remaining - a.span - b.span := by
  have hswap := results_comm (fun f hf g hg => hindep.symm.events
    (event_mem_of_mem_runFirings hb.single hf) (event_mem_of_mem_runFirings ha.single hg))
    state.atoms
  rw [← hswap, Nat.sub_right_comm]
  exact run_in_order hb ha (fun x hx => (hindep.second x hx).1) (Nat.add_comm a.span _ ▸ hleft)

/-- **Both parts at once**: a combination leads to the same atoms as its parts in order, and takes as
long as the longer one. -/
theorem run_side_by_side {action : ℕ} {c : Combination}
    (hkind : m.kind? action = some (.combined j)) (hc : m.combinations[j]? = some c)
    (ha : m.singles[c.first]? = some a) (hb : m.singles[c.second]? = some b)
    (hindep : a.Independent m.core.atoms b) (happ : m.isApplicable state action = true)
    (hleft : max a.span b.span ≤ state.remaining) :
    State.atoms <$> m.reach [action] state =
        results m.core.atoms (m.runFirings c.first ++ m.runFirings c.second) state.atoms ∧
      ∀ t, (m.reach [action] state).prob t ≠ 0 →
        t.remaining = state.remaining - max a.span b.span := by
  rw [reach_singleton, ofList_transitions_combined hkind hc ha hb happ hleft,
    results_parts c ha hb hindep]
  exact ⟨atoms_map_running _ _, fun _ => remaining_of_prob_map_running⟩

/-- **Independent parts of a combination can be run in any order.** Take a combination that can be
made in a state in which the time left suffices for its parts one after the other, and let the parts
be independent. Each part can be taken, and can still be taken after the other one. The combination
leads to the same atoms with the same probabilities as its parts one after the other, in either
order. It takes as long as the longer part, and the parts one after the other take the sum. -/
theorem combination_any_order {q : CombinationProblem K} {discount : K}
    (hm : ofCombination q discount = .ok m) {c : Combination} (hc : q.combinations[j]? = some c)
    (ha : q.singles[c.first]? = some a) (hb : q.singles[c.second]? = some b)
    (hindep : a.Independent q.core.atoms b) {s : State}
    (happ : m.isApplicable s (q.singles.length + j) = true)
    (hleft : a.span + b.span ≤ s.remaining) :
    (m.kind? (q.singles.length + j) = some (.combined j) ∧
      m.kind? c.first = some (.single c.first) ∧ m.kind? c.second = some (.single c.second)) ∧
    (m.isApplicable s c.first = true ∧
      ∀ t ∈ m.successors s c.first, m.isApplicable t c.second = true) ∧
    (m.isApplicable s c.second = true ∧
      ∀ t ∈ m.successors s c.second, m.isApplicable t c.first = true) ∧
    State.atoms <$> m.reach [c.first, c.second] s =
      State.atoms <$> m.reach [q.singles.length + j] s ∧
    State.atoms <$> m.reach [c.second, c.first] s =
      State.atoms <$> m.reach [q.singles.length + j] s ∧
    (∀ t, (m.reach [q.singles.length + j] s).prob t ≠ 0 →
      t.remaining = s.remaining - max a.span b.span) ∧
    (∀ t, (m.reach [c.first, c.second] s).prob t ≠ 0 →
      t.remaining = s.remaining - a.span - b.span) ∧
    ∀ t, (m.reach [c.second, c.first] s).prob t ≠ 0 →
      t.remaining = s.remaining - a.span - b.span := by
  have hkinds := kind?_ofCombination hm
  have hfirst : m.kind? c.first = some (.single c.first) := by
    rw [hkinds, if_pos (List.getElem?_eq_some_iff.mp ha).1]
  have hsecond : m.kind? c.second = some (.single c.second) := by
    rw [hkinds, if_pos (List.getElem?_eq_some_iff.mp hb).1]
  have hcombined : m.kind? (q.singles.length + j) = some (.combined j) := by
    have hj := (List.getElem?_eq_some_iff.mp hc).1
    rw [hkinds, if_neg (Nat.not_lt.mpr (Nat.le_add_right _ _)),
      if_pos (Nat.add_lt_add_left hj _), Nat.add_sub_cancel_left]
  obtain ⟨-, rfl⟩ := ofCombination_eq_ok_iff.mp hm
  have hc' := List.getElem?_toArray.trans hc
  have ha' := List.getElem?_toArray.trans ha
  have hb' := List.getElem?_toArray.trans hb
  obtain ⟨hready, hready'⟩ := ready_of_combined hcombined hc' hfirst hsecond ha' hb' happ
  have hmax : max a.span b.span ≤ s.remaining :=
    (Nat.max_le.mpr ⟨Nat.le_add_right _ _, Nat.le_add_left _ _⟩).trans hleft
  obtain ⟨hside, hspan⟩ := run_side_by_side hcombined hc' ha' hb' hindep happ hmax
  obtain ⟨hlegal, hforth, hspent⟩ :=
    run_in_order hready hready' (fun x hx => (hindep.first x hx).1) hleft
  obtain ⟨hlegal', hback, hspent'⟩ := run_in_reverse hready hready' hindep hleft
  exact ⟨⟨hcombined, hfirst, hsecond⟩, hlegal, hlegal', hforth.trans hside.symm,
    hback.trans hside.symm, hspan, hspent, hspent'⟩

/-- Throwing one of several dice: the die is in the air, and then it may show a six. -/
def throwDie (die duration : ℕ) : ConvertedAction ℚ where
  course := .split
    { name := "throw"
      start := ⟨"throw@start", [⟨⟨2 * die⟩, false⟩], [⟨⟨2 * die⟩, true⟩], []⟩
      finish := ⟨"throw@end", [⟨⟨2 * die⟩, true⟩], [⟨⟨2 * die⟩, false⟩],
        [⟨[⟨2 * die + 1⟩], .coin (1 / 6) (5 / 6), []⟩]⟩
      duration }
  resources := .empty
  combinable := true

/-- Throwing a die writes its own two atoms. -/
theorem writes_throwDie {die duration : ℕ} {x : AtomId} (h : (throwDie die duration).Writes x) :
    x = ⟨2 * die⟩ ∨ x = ⟨2 * die + 1⟩ := by
  simpa [ConvertedAction.Writes, throwDie, ConvertedAction.events, ConvertedAction.start,
    ConvertedAction.finish?, Event.Writes, eq_comm] using h

/-- Throwing a die reads only whether it is in the air. -/
theorem reads_throwDie {die duration : ℕ} {x : AtomId}
    (h : (throwDie die duration).Reads table x) : x = ⟨2 * die⟩ := by
  simpa [ConvertedAction.Reads, throwDie, ConvertedAction.events, ConvertedAction.start,
    ConvertedAction.finish?, Event.Reads, Law.coin, Law.templates, eq_comm] using h

/-- Different dice do not meet: each one has two atoms of its own, by `writes_throwDie` and
`reads_throwDie`. -/
theorem independent_throwDie {die die' : ℕ} (hne : die ≠ die') (duration duration' : ℕ) :
    (throwDie die duration).Independent table (throwDie die' duration') := by
  have hmeet : ∀ {die die' x}, die ≠ die' → (x = ⟨2 * die⟩ ∨ x = ⟨2 * die + 1⟩) →
      ¬(x = (⟨2 * die'⟩ : AtomId) ∨ x = ⟨2 * die' + 1⟩) := by
    rintro die die' x hne (rfl | rfl)
    · simp only [AtomId.mk.injEq]
      omega
    · simp only [AtomId.mk.injEq]
      omega
  constructor
  · exact fun x hx => ⟨fun hreads => hmeet hne (writes_throwDie hx)
      (Or.inl (reads_throwDie hreads)),
      fun hwrites => hmeet hne (writes_throwDie hx) (writes_throwDie hwrites)⟩
  · exact fun x hx => ⟨fun hreads => hmeet hne.symm (writes_throwDie hx)
      (Or.inl (reads_throwDie hreads)),
      fun hwrites => hmeet hne.symm (writes_throwDie hx) (writes_throwDie hwrites)⟩

/-- Two dice, one of which is thrown higher. -/
def twoDice : CombinationProblem ℚ :=
  ConvertedProblem.combine ⟨⟨"dice", {}, .empty, .empty, [⟨⟨1⟩, true⟩], 4⟩,
    [throwDie 0 1, throwDie 1 2]⟩

theorem ofCombination_twoDice : ofCombination twoDice 1 = .ok (combinationProcess twoDice 1) := by
  refine ofCombination_eq_ok_iff.mpr ⟨check_eq_ok_iff.mpr ⟨by norm_num, ?_⟩, rfl⟩
  have hlaw : (Law.coin (1 / 6 : ℚ) (5 / 6)).IsNearlyDistribution :=
    Law.isNearlyDistribution_coin (by norm_num) (by norm_num) (by norm_num)
  simpa [twoDice, ConvertedProblem.combine, throwDie, ConvertedAction.events,
    ConvertedAction.start, ConvertedAction.finish?] using hlaw

/-- Two dice thrown together show what they show when they are thrown one after the other. -/
theorem combination_any_order_dice :
    let m := combinationProcess twoDice 1
    ofCombination twoDice 1 = .ok m ∧
      (throwDie 0 1).Independent twoDice.core.atoms (throwDie 1 2) ∧
      m.isApplicable m.initialState 2 = true ∧
      State.atoms <$> m.reach [0, 1] m.initialState = State.atoms <$> m.reach [2] m.initialState ∧
      State.atoms <$> m.reach [1, 0] m.initialState =
        State.atoms <$> m.reach [2] m.initialState := by
  intro m
  have hindep : (throwDie 0 1).Independent twoDice.core.atoms (throwDie 1 2) :=
    independent_throwDie (by decide) 1 2
  have happ : m.isApplicable m.initialState 2 = true := by decide
  obtain ⟨-, -, -, hforth, hback, -⟩ := combination_any_order ofCombination_twoDice
    (j := 0) (c := ⟨"throw|throw", 0, 1, .empty⟩) rfl (a := throwDie 0 1) rfl
    (b := throwDie 1 2) rfl hindep (s := m.initialState) happ (by decide)
  exact ⟨ofCombination_twoDice, hindep, happ, hforth, hback⟩

end Mdp

end DurativePlanning
