import DurativePlanning.Proofs.Mdp.Run
import DurativePlanning.Proofs.Problem.Resource
import Mathlib.Data.Rat.Floor

/-!
# Resources Are Held by One Action at a Time

Nothing in a decision process keeps track of who holds a resource: an action that uses one asks for
an atom to be true, makes it false at its start, and true at its end. That at most one running
action holds it follows from an invariant of all reachable states: where an entry of the agenda
belongs to an action with the resource, it is the only such entry, and the atom is false.

* `Mdp.keeps`: the entries of actions that have an atom as a resource.
* `Mdp.Exclusive`: the invariant.
* `Mdp.Exclusive.step`: every decision keeps it, whatever starts and ends in the same tick.
* `Mdp.resource_exclusion`: the invariant for compiled domains.
-/

namespace DurativePlanning

variable {α : Type}

/-- `fireAll` of a single event gives its `outcomes`. -/
theorem mem_fireAll_singleton [Arithmetic α] {table : AtomTable} {f : Firing α} {s t : AtomSet} :
    t ∈ (fireAll table [f] s).map Prod.snd ↔ t ∈ (f.outcomes table s).map Prod.snd := by
  simp [fireAll, fire]

namespace Mdp

/-- Whether an entry belongs to an action that has the atom `r` as a resource. -/
def keeps (m : Mdp α) (r : AtomId) (e : InFlight) : Bool :=
  (m.singles[e.action]?).any fun a => a.resources.contains r

/-- **The invariant**: at most one entry of the agenda `keeps` the atom, and where one does the atom
is false. -/
structure Exclusive (m : Mdp α) (r : AtomId) (s : State) : Prop where
  single : s.agenda.toList.countP (m.keeps r) ≤ 1
  taken : (∃ e ∈ s.agenda.toList, m.keeps r e = true) → r ∉ s.atoms

/-- `InFlight.tick` does not change which action an entry belongs to. -/
@[simp] theorem keeps_tick (m : Mdp α) (r : AtomId) (e : InFlight) :
    m.keeps r e.tick = m.keeps r e := rfl

/-- An entry `keeps` an atom as a resource exactly when its action has it. -/
theorem keeps_iff {m : Mdp α} {r : AtomId} {e : InFlight} {a : ConvertedAction α}
    (h : m.singles[e.action]? = some a) : m.keeps r e = true ↔ r ∈ a.resources := by
  rw [keeps, h]
  exact AtomSet.contains_iff

/-- A state with an empty agenda is `Exclusive`: nothing is running. -/
theorem exclusive_of_agenda_eq_empty {m : Mdp α} {r : AtomId} {s : State}
    (h : s.agenda = .empty) : m.Exclusive r s := by
  refine ⟨?_, ?_⟩
  · rw [h]
    exact Nat.zero_le 1
  · rintro ⟨e, he, -⟩
    rw [h] at he
    exact absurd he List.not_mem_nil

/-- Where an action that needs an atom as a resource can begin, no running action has it. -/
theorem Exclusive.not_keeps {m : Mdp α} {r : AtomId} {s : State} (hs : m.Exclusive r s) {i : ℕ}
    {a : ConvertedAction α} (ha : m.singles[i]? = some a) (hneeds : ⟨r, true⟩ ∈ a.start.conditions)
    (hbegin : m.canBegin s i = true) : ∀ e ∈ s.agenda.toList, m.keeps r e = false := by
  rw [canBegin, ha, Option.any_some] at hbegin
  have hfree : s.atoms.contains r = true := by
    simpa using List.all_eq_true.mp hbegin _ hneeds
  intro e he
  by_contra hkeeps
  exact hs.taken ⟨e, he, by simpa using hkeeps⟩ (AtomSet.contains_iff.mp hfree)

/-- Where the one entry with the resource goes on, the entries that are due belong to other
actions. -/
theorem not_keeps_of_due {m : Mdp α} {r : AtomId} {l : List InFlight}
    (hsingle : l.countP (m.keeps r) ≤ 1) {e' : InFlight} (he' : e' ∈ l) (hgoes : 1 < e'.ticksLeft)
    (hkept : m.keeps r e' = true) :
    ∀ e ∈ l, e.ticksLeft ≤ 1 → m.keeps r e = false := by
  have hparts := List.countP_eq_countP_filter_add l (m.keeps r) fun e => decide (1 < e.ticksLeft)
  have hpos : 1 ≤ (l.filter fun e => decide (1 < e.ticksLeft)).countP (m.keeps r) :=
    List.one_le_countP_iff.mpr ⟨e', List.mem_filter.mpr ⟨he', by simpa using hgoes⟩, hkept⟩
  have hnone : (l.filter fun e => !decide (1 < e.ticksLeft)).countP (m.keeps r) = 0 := by omega
  intro e he hticks
  simpa using List.countP_eq_zero.mp hnone e (List.mem_filter.mpr ⟨he, by simpa using hticks⟩)

variable [Arithmetic α] {p : ConvertedProblem α} {discount : α} {m : Mdp α} {r : AtomId}
  {s t : State}

/-- **Taking a resource**: an action with extent that `Respects` the atom and has it as a resource
makes it false with its start. -/
theorem notMem_of_takes {a : ConvertedAction α} (ha : a.Respects r) (hr : r ∈ a.resources)
    (hextent : a.finish?.isSome = true) {table : AtomTable} {atoms : AtomSet} :
    ∀ t ∈ (fireAll table [⟨a.start, false⟩] atoms).map Prod.snd, r ∉ t := by
  intro t ht
  obtain ⟨hassigned, hfalse, hgroups⟩ := ha.takes hr hextent
  rw [Event.mem_iff_of_not_target hgroups (mem_fireAll_singleton.mp ht)]
  exact AtomSet.notMem_assignAll hfalse (Or.inr hassigned)

/-- **Leaving a resource alone**: an action that `Respects` the atom and does not have it as a
resource begins without a change of the atom. -/
theorem mem_iff_of_frame {a : ConvertedAction α} (ha : a.Respects r) (hr : r ∉ a.resources)
    {table : AtomTable} {atoms : AtomSet} :
    ∀ t ∈ (fireAll table [⟨a.start, false⟩] atoms).map Prod.snd, (r ∈ t ↔ r ∈ atoms) := by
  intro t ht
  exact Event.mem_iff_of_not_writes (ha.frame hr a.start List.mem_cons_self)
    (mem_fireAll_singleton.mp ht)

/-- An action with extent that starts from an `Exclusive` state: if it has the resource it is the
only one, and it takes the resource; otherwise it leaves the resource to whoever holds it. -/
theorem Exclusive.begin_start (hs : m.Exclusive r s) {i : ℕ} {action : SplitAction α}
    {resources : AtomSet} {combinable : Bool}
    (ha : m.singles[i]? = some ⟨.split action, resources, combinable⟩)
    (hrespects : ConvertedAction.Respects r ⟨.split action, resources, combinable⟩)
    (hbegin : m.canBegin s i = true) :
    (m.entries s (.start i)).countP (m.keeps r) ≤ 1 ∧
      ((∃ e ∈ m.entries s (.start i), m.keeps r e = true) → ∀ t ∈ (fireAll m.core.atoms
        [⟨action.start, false⟩] s.atoms).map Prod.snd, r ∉ t) := by
  have hkeeps := keeps_iff (r := r) (e := ⟨action.duration, i⟩) ha
  rw [entries_start ha, List.countP_cons]
  by_cases hr : r ∈ resources
  · have hnone := hs.not_keeps ha (hrespects.needs hr) hbegin
    refine ⟨?_, fun _ => notMem_of_takes hrespects hr rfl⟩
    rw [List.countP_eq_zero.mpr fun e he => by simp [hnone e he], if_pos (hkeeps.mpr hr)]
  · have hnot : ¬m.keeps r ⟨action.duration, i⟩ = true := fun h => hr (hkeeps.mp h)
    refine ⟨?_, ?_⟩
    · rw [if_neg hnot]
      exact hs.single
    · rintro ⟨e, he, hek⟩ t ht
      rw [mem_iff_of_frame hrespects hr t ht]
      rcases List.mem_cons.mp he with rfl | he
      · exact absurd hek hnot
      · exact hs.taken ⟨e, he, hek⟩

/-- An action without extent that begins leaves the resource to whoever holds it: if it has the
resource itself, nobody does. -/
theorem Exclusive.begin_instant (hs : m.Exclusive r s) {i : ℕ} {a : ConvertedAction α}
    (ha : m.singles[i]? = some a) (hrespects : a.Respects r) (hbegin : m.canBegin s i = true)
    (hkept : ∃ e ∈ s.agenda.toList, m.keeps r e = true) :
    ∀ t ∈ (fireAll m.core.atoms [⟨a.start, false⟩] s.atoms).map Prod.snd, r ∉ t := by
  intro t ht
  obtain ⟨e, he, hek⟩ := hkept
  by_cases hr : r ∈ a.resources
  · have hnone := hs.not_keeps ha (hrespects.needs hr) hbegin e he
    exact absurd hek (by simp [hnone])
  · rw [mem_iff_of_frame hrespects hr t ht]
    exact hs.taken ⟨e, he, hek⟩

/-- **The start of a decision**: among the entries that compete for the tick at most one belongs to
an action with the resource, and where one does the atom is false after the chosen event. -/
theorem Exclusive.begin (hm : ofConverted p discount = .ok m)
    (hrespects : ∀ a ∈ p.actions, a.Respects r) (hs : m.Exclusive r s) {action : ℕ}
    {kind : ActionKind} (hkind : m.kind? action = some kind) (hadmits : m.admits s kind = true) :
    (m.entries s kind).countP (m.keeps r) ≤ 1 ∧
      ((∃ e ∈ m.entries s kind, m.keeps r e = true) → ∀ t ∈ (fireAll m.core.atoms
        (m.startFirings (m.begun kind)) s.atoms).map Prod.snd, r ∉ t) := by
  rcases kind?_split_cases hm hkind with ⟨split, resources, combinable, hc, rfl⟩ |
    ⟨event, resources, combinable, hc, rfl⟩ | rfl
  · have ha := (getElem?_singles hm action).trans hc
    obtain ⟨-, hbegin⟩ := (Bool.and_eq_true _ _).mp hadmits
    rw [begun, startFirings_singleton ha]
    exact hs.begin_start ha (hrespects _ (List.mem_of_getElem? hc)) hbegin
  · have ha := (getElem?_singles hm action).trans hc
    rw [begun, startFirings_singleton ha]
    exact ⟨hs.single, hs.begin_instant ha (hrespects _ (List.mem_of_getElem? hc)) hadmits⟩
  · refine ⟨hs.single, fun hkept t ht => ?_⟩
    obtain rfl := List.mem_singleton.mp ht
    exact hs.taken hkept

/-- **The ends of a decision**: no event of `endFirings` writes the atom when the actions that end
do not have it as a resource. -/
theorem not_writes_of_mem_endFirings (hm : ofConverted p discount = .ok m)
    (hrespects : ∀ a ∈ p.actions, a.Respects r) {actions : List ℕ}
    (hothers : ∀ i ∈ actions, ∀ a, m.singles[i]? = some a → r ∉ a.resources) :
    ∀ f ∈ m.endFirings actions, ¬f.event.Writes r := by
  intro f hf
  obtain ⟨e, he, rfl⟩ := List.mem_map.mp hf
  obtain ⟨i, hi, hfinish⟩ := List.mem_filterMap.mp he
  obtain ⟨a, ha, hfinish⟩ := Option.bind_eq_some_iff.mp hfinish
  have hmem : a ∈ p.actions := List.mem_of_getElem? ((getElem?_singles hm i).symm.trans ha)
  refine (hrespects a hmem).frame (hothers i hi a ha) e (List.mem_cons_of_mem _ ?_)
  rw [hfinish]
  exact List.mem_singleton_self e

/-- **One decision keeps the invariant**, whatever starts and ends in the same tick: every successor
of an `Exclusive` state is `Exclusive`. -/
theorem Exclusive.step (hm : ofConverted p discount = .ok m)
    (hrespects : ∀ a ∈ p.actions, a.Respects r) (hs : m.Exclusive r s) {action : ℕ}
    (ht : t ∈ m.successors s action) : m.Exclusive r t := by
  rcases mem_successors ht with ⟨-, rfl⟩ | ⟨-, rfl⟩ |
    ⟨kind, -, hkind, hadmits, -, atoms, hatoms, rfl⟩
  · exact hs
  · exact exclusive_of_agenda_eq_empty rfl
  obtain ⟨hsingle, htaken⟩ := hs.begin hm hrespects hkind hadmits
  have hagenda := nextAgenda_split hm hkind s
  refine ⟨?_, ?_⟩
  · rw [resultOf, State.agenda, hagenda, (Agenda.perm_ofList _).countP_eq, List.countP_map]
    exact le_trans List.filter_sublist.countP_le hsingle
  · rintro ⟨e, he, hek⟩
    rw [resultOf, State.agenda, hagenda, Agenda.mem_ofList, List.mem_map] at he
    obtain ⟨e', he', rfl⟩ := he
    obtain ⟨hmem, hgoes⟩ := List.mem_filter.mp he'
    rw [keeps_tick] at hek
    have hdue := not_keeps_of_due hsingle hmem (by simpa using hgoes) hek
    rw [firings_eq, fireAll_append] at hatoms
    refine foldl_fire_forall (htaken ⟨e', hmem, hek⟩) ?_ atoms hatoms
    intro f hf u hu t ht
    rcases Firing.mem_outcomes ht with rfl | ht
    · exact hu
    · rw [Event.mem_iff_of_not_writes ?_ ht]
      · exact hu
      · refine not_writes_of_mem_endFirings hm hrespects (fun i hi a ha hr => ?_) f hf
        obtain ⟨e, he, hticks, rfl⟩ := (mem_ended_iff hm hkind).mp hi
        exact absurd ((keeps_iff ha).mpr hr) (by simp [hdue e he hticks])

/-- **Every reachable state** is `Exclusive`, by induction on the decisions with
`Exclusive.step`. -/
theorem Reachable.exclusive (hm : ofConverted p discount = .ok m)
    (hrespects : ∀ a ∈ p.actions, a.Respects r) (hs : m.Reachable s) : m.Exclusive r s := by
  induction hs with
  | initial => exact exclusive_of_agenda_eq_empty rfl
  | step action _ ht ih => exact ih.step hm hrespects ht

/-- **Resource exclusion.** In a compiled domain take an atom on which the schemas have effects only
by using it as a resource, and which no group targets. In every state to which some decisions can
lead, at most one entry of the agenda belongs to an action that has the atom as a resource, and
where one does the atom is false. Conditions may ask for the atom anywhere, and its initial value
does not matter. -/
theorem resource_exclusion {d : Domain α} {g : GroundProblem α}
    (hground : d.ground = .ok g) (hm : ofConverted g.convert discount = .ok m)
    (hauthored : ∀ a ∈ g.actions, ∀ schema, d.schema? a.schema = some schema →
      schema.Authored fun τ => g.core.atoms.atomOf a.args τ ≠ some r)
    (hgroups : ∀ a ∈ g.actions, ∀ group ∈ a.groups, r ∉ group.targets)
    (hs : m.Reachable s) :
    s.agenda.toList.countP (m.keeps r) ≤ 1 ∧
      ((∃ e ∈ s.agenda.toList, m.keeps r e = true) → s.holds r = false) := by
  have hrespects : ∀ a ∈ g.convert.actions, a.Respects r := by
    intro c hc
    obtain ⟨a, ha, rfl⟩ := List.mem_map.mp hc
    obtain ⟨schema, hschema, hinst⟩ := Domain.ground_instantiates hground a ha
    exact hinst.respects (hauthored a ha schema hschema) (hgroups a ha)
  obtain ⟨hsingle, htaken⟩ := hs.exclusive hm hrespects
  refine ⟨hsingle, fun hkept => ?_⟩
  rw [State.holds, Bool.eq_false_iff, ne_eq, AtomSet.contains_iff]
  exact htaken hkept

/-! ### Two actions that need the same arm -/

/-- The fluents of the workshop: whether the arm is free, and whether it is at rest. -/
def workshopFluents : List GroundFluent := [⟨⟨0⟩, []⟩, ⟨⟨1⟩, []⟩]

/-- Lifting takes the arm for two ticks and unsettles it. -/
def lifting : Schema ℚ :=
  (Schema.uses { name := "lift", duration := 2 } (.nullary ⟨0⟩)).effect .atStart (.nullary ⟨1⟩)
    false

/-- Pushing takes the arm for three ticks. -/
def pushing : Schema ℚ := Schema.uses { name := "push", duration := 3 } (.nullary ⟨0⟩)

/-- A workshop with one arm. -/
def workshop : Domain ℚ where
  name := "workshop"
  kind := .regular
  declarations := { fluents := #[⟨"free", [], true⟩, ⟨"resting", [], true⟩] }
  schemas := [lifting, pushing]
  deadline := 5

/-- The instance of lifting. -/
def workshopLift : GroundAction ℚ :=
  ⟨"lift", ⟨0⟩, [], 2, [(.atStart, ⟨⟨0⟩, true⟩)],
    [(.atStart, ⟨⟨0⟩, false⟩), (.atEnd, ⟨⟨0⟩, true⟩), (.atStart, ⟨⟨1⟩, false⟩)], [],
    .ofList [⟨0⟩], true⟩

/-- The instance of pushing. -/
def workshopPush : GroundAction ℚ :=
  ⟨"push", ⟨1⟩, [], 3, [(.atStart, ⟨⟨0⟩, true⟩)],
    [(.atStart, ⟨⟨0⟩, false⟩), (.atEnd, ⟨⟨0⟩, true⟩)], [], .ofList [⟨0⟩], true⟩

/-- The ground problem of the workshop: each schema has one instance. -/
def workshopGround : GroundProblem ℚ :=
  ⟨⟨"workshop", workshop.declarations, .ofList workshopFluents, .ofList [⟨0⟩, ⟨1⟩], [], 5⟩,
    [workshopLift, workshopPush]⟩

theorem toList_workshopFluents :
    (Numbering.ofList workshopFluents).toList = workshopFluents :=
  Numbering.toList_ofList (by decide)

/-- Both fluents have their numbers already, so that asking for them changes nothing. -/
theorem internTemplate_workshop (i : ℕ) (hi : i < 2) (schema : String) :
    AtomTable.internTemplate (.ofList workshopFluents) workshop.declarations schema []
      (.nullary ⟨i⟩) = .ok (⟨i⟩, .ofList workshopFluents) := by
  have hcases : i = 0 ∨ i = 1 := by omega
  have hmem : ⟨⟨i⟩, []⟩ ∈ (Numbering.ofList workshopFluents).toList := by
    rw [toList_workshopFluents]
    obtain rfl | rfl := hcases
    · decide
    · decide
  have hnumber : AtomTable.internAtom (.ofList workshopFluents) ⟨⟨i⟩, []⟩ =
      (⟨i⟩, .ofList workshopFluents) := by
    rw [AtomTable.internAtom, Numbering.intern_of_mem hmem, toList_workshopFluents]
    obtain rfl | rfl := hcases
    · rfl
    · rfl
  have hsignature : workshop.declarations.checkSignature ⟨⟨i⟩, []⟩ = .ok () := by
    obtain rfl | rfl := hcases
    · rfl
    · rfl
  change AtomTable.internChecked _ _ ⟨⟨i⟩, []⟩ = _
  rw [AtomTable.internChecked, hsignature, hnumber]
  rfl

/-- The workshop grounds to `workshopGround`. -/
theorem ground_workshop : workshop.ground = .ok workshopGround := by
  have hdefaults : workshop.defaults = (.ofList workshopFluents, .ofList [⟨0⟩, ⟨1⟩]) := by
    have hsize : (Numbering.ofList workshopFluents).size = 2 :=
      Array.length_toList.symm.trans (congrArg List.length toList_workshopFluents)
    have htrue : workshop.declarations.defaultTrue = workshopFluents := by decide
    rw [Domain.defaults, htrue, AtomTable.atoms, hsize]
    rfl
  have hlifting : lifting.instantiateAll workshop.declarations ⟨0⟩ (.ofList workshopFluents) [[]] =
      .ok ([workshopLift], .ofList workshopFluents) := by
    simp [Schema.instantiateAll, Schema.instantiate, lifting, Schema.uses, Schema.effect,
      Schema.require, AtomTable.internTemplates, internTemplate_workshop, AtomTable.internGroups,
      bind, Except.bind, pure, Except.pure, applied, workshopLift]
  have hpushing : pushing.instantiateAll workshop.declarations ⟨1⟩ (.ofList workshopFluents) [[]] =
      .ok ([workshopPush], .ofList workshopFluents) := by
    simp [Schema.instantiateAll, Schema.instantiate, pushing, Schema.uses, Schema.effect,
      Schema.require, AtomTable.internTemplates, internTemplate_workshop, AtomTable.internGroups,
      bind, Except.bind, pure, Except.pure, applied, workshopPush]
  simp only [Domain.ground, hdefaults, bind_eq_ok_iff]
  refine ⟨([], _), rfl, ([], _), rfl, (workshopGround.actions, _), ?_, rfl⟩
  simp only [workshop, Domain.groundSchemas, bind_eq_ok_iff]
  exact ⟨[[]], rfl, _, hlifting, ([workshopPush], _),
    ⟨[[]], rfl, _, hpushing, ([], _), rfl, rfl⟩, rfl⟩

/-- The process of the workshop. -/
def workshopProcess : Mdp ℚ := splitProcess workshopGround.convert 1

theorem ofConverted_workshop : ofConverted workshopGround.convert 1 = .ok workshopProcess := by
  refine ofConverted_eq_ok_iff.mpr ⟨check_convert_eq_ok_iff.mpr ⟨by norm_num, ?_⟩, rfl⟩
  simp [workshopGround, workshopLift, workshopPush]

/-- The schemas of the workshop have effects on the arm only by using it; unsettling it is an effect
on another fluent. -/
theorem authored_workshop : ∀ a ∈ workshopGround.actions, ∀ schema,
    workshop.schema? a.schema = some schema →
      schema.Authored fun τ => workshopGround.core.atoms.atomOf a.args τ ≠ some ⟨0⟩ := by
  have hresting : workshopGround.core.atoms.atomOf [] (.nullary ⟨1⟩) ≠ some ⟨0⟩ := by
    intro h
    have hfluent : (Numbering.ofList workshopFluents).get? 0 = some ⟨⟨1⟩, []⟩ :=
      AtomTable.lookup_eq_some_iff.mp h
    rw [Numbering.get?_eq_getElem?, toList_workshopFluents] at hfluent
    exact absurd hfluent (by decide)
  intro a ha schema hschema
  rcases List.mem_cons.mp ha with rfl | ha
  · obtain rfl := Option.some.inj hschema
    exact .effect _ _ _ hresting (.uses _ (.new _ _))
  · obtain rfl := List.mem_singleton.mp ha
    obtain rfl := Option.some.inj hschema
    exact .uses _ (.new _ _)

/-- Lifting holds the arm while it runs, so nothing else can take it. -/
theorem resource_exclusion_workshop :
    workshop.ground = .ok workshopGround ∧
      ofConverted workshopGround.convert 1 = .ok workshopProcess ∧
      workshopProcess.Reachable (.running .empty 4 (.ofList [⟨1, 0⟩])) ∧
      (Agenda.ofList [⟨1, 0⟩]).toList.countP (workshopProcess.keeps ⟨0⟩) ≤ 1 ∧
      State.holds (.running .empty 4 (.ofList [⟨1, 0⟩])) ⟨0⟩ = false := by
  have hsuccessors : workshopProcess.successors workshopProcess.initialState 0 =
      [.running .empty 4 (.ofList [⟨1, 0⟩])] := by cbv
  have hreachable : workshopProcess.Reachable (.running .empty 4 (.ofList [⟨1, 0⟩])) :=
    .step 0 .initial (hsuccessors ▸ List.mem_singleton_self _)
  have hgroups : ∀ a ∈ workshopGround.actions, ∀ group ∈ a.groups, ⟨0⟩ ∉ group.targets := by
    simp [workshopGround, workshopLift, workshopPush]
  obtain ⟨hsingle, hfalse⟩ := resource_exclusion ground_workshop ofConverted_workshop
    authored_workshop hgroups hreachable
  refine ⟨ground_workshop, ofConverted_workshop, hreachable, hsingle, hfalse ⟨⟨1, 0⟩, ?_, ?_⟩⟩
  · exact Agenda.mem_ofList.mpr (List.mem_singleton_self _)
  · cbv
end Mdp

end DurativePlanning
