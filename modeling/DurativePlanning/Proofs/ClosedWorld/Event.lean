import DurativePlanning.Proofs.ClosedWorld.Interpreter
import DurativePlanning.Proofs.Mdp.Event
import DurativePlanning.Proofs.Problem.Ground

/-!
# Events Seen Through the Table

Through the table of atoms a set of atoms says of every ground fluent whether it is true: it is when
it has a number and the number is in the set. A ground fluent without a number is false, and setting
a ground fluent that has one is the same before and after looking through the table. From these two
facts an event on atoms and the event on ground fluents that it denotes have the same results, with
the same weights and in the same order; no law can tell the difference, since both read the same
valuation.

* `AtomTable.Denotes`: the ground fluent and value that a literal stands for.
* `AtomTable.holdsIn_assignAll`: assigning literals is setting what they denote.
* `Event.Denotes`: the event on ground fluents that an event on atoms stands for.
* `Event.Denotes.results`: both have the same results.
* `map_read_fireAll`: so have sequences of events.
-/

namespace DurativePlanning

variable {α : Type} {t : AtomTable}

/-- At each place two lists related by `List.Forall₂` both end, or have related members. -/
theorem getElem?_cases_of_forall₂ {β γ : Type} {R : β → γ → Prop} {l : List β} {l' : List γ}
    (h : List.Forall₂ R l l') (i : ℕ) :
    (l[i]? = none ∧ l'[i]? = none) ∨ ∃ x y, l[i]? = some x ∧ l'[i]? = some y ∧ R x y := by
  induction h generalizing i with
  | nil => exact Or.inl ⟨rfl, rfl⟩
  | cons hfirst _ ih =>
      cases i with
      | zero => exact Or.inr ⟨_, _, rfl, rfl, hfirst⟩
      | succ i => exact ih i

namespace AtomTable

/-! ### Sets of atoms as valuations -/

/-- **Closed world**: `AtomTable.holdsIn` is true of the ground fluents that have an atom in the
set. -/
theorem holdsIn_eq_true_iff {s : AtomSet} {f : GroundFluent} :
    t.holdsIn s f = true ↔ ∃ a, t.lookup f = some a ∧ a ∈ s := by
  simp [holdsIn, Option.any_eq_true, AtomSet.contains_iff]

/-- A ground fluent that has an atom by `lookup` holds when the set has the atom. -/
theorem holdsIn_of_lookup {s : AtomSet} {f : GroundFluent} {a : AtomId}
    (h : t.lookup f = some a) : t.holdsIn s f = s.contains a := by
  rw [holdsIn, h, Option.any_some]

/-- `lookup` is injective: two ground fluents do not share an atom. -/
theorem lookup_injective {f f' : GroundFluent} {a : AtomId} (h : t.lookup f = some a)
    (h' : t.lookup f' = some a) : f = f' :=
  Option.some.inj ((lookup_eq_some_iff.mp h).symm.trans (lookup_eq_some_iff.mp h'))

/-- A literal **denotes** a ground fluent with a value: `lookup` gives its atom for the ground
fluent, and the values are equal. -/
def Denotes (t : AtomTable) (l : Literal) (x : GroundFluent × Bool) : Prop :=
  t.lookup x.1 = some l.atom ∧ l.value = x.2

/-- A draw over atoms denotes a draw over ground fluents: the weights are equal and the literals
denote the values by `Denotes`. -/
def DenotesDraw (t : AtomTable) (o : α × List Literal) (y : α × List (GroundFluent × Bool)) :
    Prop :=
  o.1 = y.1 ∧ List.Forall₂ t.Denotes o.2 y.2

/-- **Assigning a literal is setting what it denotes**: every other ground fluent keeps its value,
because its atom, if it has one, is a different one. -/
theorem holdsIn_assign {l : Literal} {x : GroundFluent × Bool} (h : t.Denotes l x) (s : AtomSet) :
    t.holdsIn (s.assign l) = Valuation.set (t.holdsIn s) x := by
  obtain ⟨hlookup, hvalue⟩ := h
  funext f
  rw [Bool.eq_iff_iff]
  by_cases hf : f = x.1
  · subst hf
    rw [holdsIn_of_lookup hlookup, AtomSet.contains_iff, AtomSet.mem_assign, Valuation.set,
      Function.update_self, ← hvalue]
    simp
  · rw [Valuation.set, Function.update_of_ne hf, holdsIn_eq_true_iff, holdsIn_eq_true_iff]
    refine exists_congr fun a => and_congr_right fun ha => ?_
    have hne : a ≠ l.atom := fun heq => hf (lookup_injective ha (heq ▸ hlookup))
    rw [AtomSet.mem_assign]
    simp [hne]

/-- `AtomSet.assignAll` is `Valuation.setAll` of what the literals denote, in the same order. -/
theorem holdsIn_assignAll {literals : List Literal} {values : List (GroundFluent × Bool)}
    (h : List.Forall₂ t.Denotes literals values) (s : AtomSet) :
    t.holdsIn (s.assignAll literals) = Valuation.setAll (t.holdsIn s) values := by
  induction h generalizing s with
  | nil => rfl
  | cons hfirst _ ih =>
      rw [AtomSet.assignAll_cons, ih, holdsIn_assign hfirst]
      rfl

/-- `AtomSet.satisfiesAll` on literals is `Valuation.satisfiesAll` on what they denote. -/
theorem satisfiesAll_eq {literals : List Literal} {values : List (GroundFluent × Bool)}
    (h : List.Forall₂ t.Denotes literals values) (s : AtomSet) :
    s.satisfiesAll literals = Valuation.satisfiesAll (t.holdsIn s) values := by
  induction h with
  | nil => rfl
  | cons hfirst _ ih =>
      rw [AtomSet.satisfiesAll, Valuation.satisfiesAll] at *
      rw [List.all_cons, List.all_cons, ih, holdsIn_of_lookup hfirst.1, hfirst.2]

/-- As many literals are true in a set as values that they denote hold: both are counted by
`List.countP`. -/
theorem countP_eq {literals : List Literal} {values : List (GroundFluent × Bool)}
    (h : List.Forall₂ t.Denotes literals values) (s : AtomSet) :
    (literals.countP fun l => s.contains l.atom == l.value) =
      values.countP fun x => t.holdsIn s x.1 == x.2 := by
  induction h with
  | nil => rfl
  | cons hfirst _ ih =>
      rw [List.countP_cons, List.countP_cons, ih, holdsIn_of_lookup hfirst.1, hfirst.2]

end AtomTable

/-! ### Groups -/

/-- A group of atoms **denotes** a group of ground fluents: the same law under the same tuple, on
targets whose atoms `lookup` gives. -/
structure EffectGroup.Denotes (t : AtomTable) (g : EffectGroup α) (y : FluentGroup α) : Prop where
  targets : List.Forall₂ (fun a f => t.lookup f = some a) g.targets y.targets
  law : g.law = y.law
  tuple : g.bindings = y.tuple

namespace EffectGroup.Denotes

variable {g : EffectGroup α} {y : FluentGroup α}

/-- An outcome gives values to what its `literals` denote. -/
theorem literals (h : g.Denotes t y) (o : Outcome α) :
    List.Forall₂ t.Denotes (g.literals o) (y.values o) := by
  refine List.rel_filterMap (R := Eq) ?_ (List.forall₂_eq_eq_eq ▸ rfl)
  rintro ⟨target, value⟩ _ rfl
  rcases getElem?_cases_of_forall₂ h.targets target with ⟨ha, hf⟩ | ⟨a, f, ha, hf, hlookup⟩
  · simp only [ha, hf]
    exact .none
  · simp only [ha, hf]
    exact .some ⟨hlookup, rfl⟩

/-- **The law takes the same branch** on a set of atoms and on the valuation it stands for:
`Law.select` only asks `holdsIn`, so that a condition without an atom is read as false on both
sides. -/
theorem select (h : g.Denotes t y) (v : Valuation) :
    g.law.select v g.bindings = y.law.select v y.tuple := by
  rw [h.law, h.tuple]

variable [Arithmetic α]

/-- The draws of a group denote the draws on ground fluents. -/
theorem draws (h : g.Denotes t y) (v : Valuation) :
    List.Forall₂ t.DenotesDraw (g.distribution v).outcomes (y.draws v) := by
  rw [EffectGroup.distribution, Distribution.ofOutcomes, FluentGroup.draws, h.select]
  refine List.rel_filter (fun o x hdraw => by simp only [hdraw.1]) ?_
  rw [List.forall₂_map_left_iff, List.forall₂_map_right_iff, List.forall₂_same]
  exact fun o _ => ⟨rfl, h.literals o⟩

end EffectGroup.Denotes

/-- `jointDistribution` of groups denotes `jointDraws` of the groups that they denote. -/
theorem jointDraws_of_denotes [Arithmetic α] {groups : List (EffectGroup α)}
    {ys : List (FluentGroup α)} (h : List.Forall₂ (EffectGroup.Denotes t) groups ys)
    (v : Valuation) :
    List.Forall₂ t.DenotesDraw (jointDistribution groups v).outcomes (jointDraws ys v) := by
  refine List.rel_foldl (P := fun (d : Distribution α) l =>
    List.Forall₂ t.DenotesDraw d.outcomes l) ?_ (.cons ⟨rfl, .nil⟩ .nil) h
  intro d l hd g y hg
  refine List.rel_flatMap hd ?_
  rintro ⟨p, left⟩ ⟨_, left'⟩ ⟨rfl, hleft⟩
  refine List.rel_map ?_ (hg.draws v)
  rintro ⟨q, right⟩ ⟨_, right'⟩ ⟨rfl, hright⟩
  exact ⟨rfl, List.rel_append hleft hright⟩

/-! ### Events -/

/-- An event on atoms **denotes** an event on ground fluents: conditions, effects and groups do,
each in the order of the lists. -/
structure Event.Denotes (t : AtomTable) (e : Event α) (h : Happening α) : Prop where
  conditions : List.Forall₂ t.Denotes e.conditions h.conditions
  effects : List.Forall₂ t.Denotes e.effects h.effects
  groups : List.Forall₂ (EffectGroup.Denotes t) e.groups h.groups

section

variable [Arithmetic α]

/-- A weighted set of atoms, read as a weighted valuation by `holdsIn`. -/
def AtomTable.read (t : AtomTable) (x : α × AtomSet) : α × Valuation := (x.1, t.holdsIn x.2)

/-- **An event and what it denotes** have the same results: `Event.outcomes`, read through the
table, is `Happening.results`. -/
theorem Event.Denotes.results {e : Event α} {h : Happening α} (he : e.Denotes t h) (s : AtomSet) :
    (e.outcomes t s).map t.read = h.results (t.holdsIn s) := by
  rw [Event.outcomes, Happening.results, ← AtomTable.holdsIn_assignAll he.effects, List.map_map]
  rw [← List.forall₂_eq_eq_eq]
  refine List.rel_map ?_ (jointDraws_of_denotes he.groups _)
  rintro ⟨p, literals⟩ ⟨_, values⟩ ⟨rfl, hvalues⟩
  exact congrArg (Prod.mk p) (AtomTable.holdsIn_assignAll hvalues _)

/-- A guarded event and what it denotes have the same results. -/
theorem Event.Denotes.guardedResults {e : Event α} {h : Happening α} (he : e.Denotes t h)
    (s : AtomSet) :
    ((⟨e, true⟩ : Firing α).outcomes t s).map t.read = h.guardedResults (t.holdsIn s) := by
  rw [Firing.outcomes, Happening.guardedResults, Bool.true_and,
    AtomTable.satisfiesAll_eq he.conditions]
  cases Valuation.satisfiesAll (t.holdsIn s) h.conditions with
  | false => rfl
  | true => exact he.results s

/-- `fire` on weighted sets of atoms, read through the table, is `chain` with the step that the
event denotes. -/
theorem map_read_fire {f : Firing α} {step : Valuation → List (α × Valuation)}
    (h : ∀ s, (f.outcomes t s).map t.read = step (t.holdsIn s)) (branches : List (α × AtomSet)) :
    (fire t branches f).map t.read = chain (branches.map t.read) step := by
  rw [fire, chain, List.map_flatMap, List.flatMap_map]
  refine List.flatMap_congr fun x _ => ?_
  simp only [AtomTable.read, ← h, List.map_map]
  rfl

/-- **Sequences of events** that denote each other have the same results: `fireAll`, read through
the table, folds `chain` over the steps, by `map_read_fire` for each event. -/
theorem map_read_fireAll {events : List (Firing α)}
    {steps : List (Valuation → List (α × Valuation))}
    (h : List.Forall₂ (fun f step => ∀ s, (f.outcomes t s).map t.read = step (t.holdsIn s))
      events steps) (s : AtomSet) :
    (fireAll t events s).map t.read = steps.foldl chain [(1, t.holdsIn s)] := by
  refine List.rel_foldl (P := fun (branches : List (α × AtomSet)) l =>
    branches.map t.read = l) ?_ rfl h
  rintro branches _ rfl f step hf
  exact map_read_fire hf branches

end

end DurativePlanning
