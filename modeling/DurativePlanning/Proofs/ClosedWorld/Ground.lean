import DurativePlanning.Proofs.ClosedWorld.Image
import DurativePlanning.Proofs.Problem.Ground

/-!
# Grounding Seen Through the Table

What grounding produces denotes what the interpreter of the domain works with: the initial set of
atoms stands for the initial values, the goals for the goals, and the ground actions, in order, for
the instances. Read through the final table it does not matter when an atom was numbered.

* `Domain.holdsIn_defaults`: the instances that are true by default.
* `GroundAction.Embodies.denotes`: a ground action denotes its instance.
* `map_positions_combinePairs`: combinations are pairs of compatible instances.
* `Domain.embodies_of_ground`: a ground problem embodies the domain it comes from.
* `GroundProblem.Embodies.realizes`: its processes realize the interpreters of the domain.
-/

namespace DurativePlanning

variable {α : Type} {u : Universe} {t t' : AtomTable}

/-! ### Values -/

/-- `setAll` gives a ground fluent the last of the values listed for it. -/
theorem Valuation.setAll_apply (v : Valuation) (values : List (GroundFluent × Bool))
    (f : GroundFluent) : v.setAll values f = (values.reverse.lookup f).getD (v f) := by
  induction values generalizing v with
  | nil => rfl
  | cons x rest ih =>
      change Valuation.setAll (v.set x) rest f = _
      rw [ih, List.reverse_cons, List.lookup_append]
      cases rest.reverse.lookup f with
      | some value => rfl
      | none =>
          obtain ⟨g, value⟩ := x
          by_cases hf : f = g
          · simp [Valuation.set, hf]
          · simp [Valuation.set, hf, List.lookup_cons, beq_false_of_ne hf]

namespace AtomTable

/-- `Denotes` is kept as the table grows. -/
theorem Denotes.mono (hgrown : t.toList <+: t'.toList) {l : Literal} {x : GroundFluent × Bool}
    (h : t.Denotes l x) : t'.Denotes l x :=
  ⟨lookup_mono hgrown h.1, h.2⟩

/-- **Numbering values**: `internLiterals` gives literals that denote the values in the table that
it leaves, which extends the table that it was given. -/
theorem internLiterals_eq_ok {values : List (GroundFluent × Bool)} {literals : List Literal}
    (h : internLiterals u t values = .ok (literals, t')) :
    t.toList <+: t'.toList ∧ List.Forall₂ t'.Denotes literals values := by
  induction values generalizing t literals with
  | nil =>
      obtain ⟨rfl, rfl⟩ := Prod.mk.inj (Except.ok.inj h)
      exact ⟨List.prefix_rfl, .nil⟩
  | cons x rest ih =>
      simp only [internLiterals, bind_eq_ok_iff] at h
      obtain ⟨⟨r, t₁⟩, hfirst, ⟨literals₁, t₂⟩, hrest, h⟩ := h
      obtain ⟨rfl, rfl⟩ := Prod.mk.inj (Except.ok.inj h)
      obtain ⟨hgrow, hliterals⟩ := ih hrest
      have hlookup := lookup_internAtom t x.1
      rw [internChecked_eq_ok hfirst] at hlookup
      exact ⟨(prefix_of_internChecked hfirst).trans hgrow,
        .cons ⟨lookup_mono hgrow hlookup, rfl⟩ hliterals⟩

/-- The atoms of a table are atoms of ground fluents, however the table grows. -/
theorem exists_lookup_of_mem_atoms (hgrown : t.toList <+: t'.toList) {a : AtomId}
    (ha : a ∈ t.atoms) : ∃ f, t'.lookup f = some a := by
  obtain ⟨n, hn, rfl⟩ := List.mem_map.mp ha
  have hlt : n < t.toList.length := by
    simpa [Numbering.size, Numbering.toList] using hn
  have hget : t.get? n = some t.toList[n] :=
    (Numbering.get?_eq_getElem? t n).trans (List.getElem?_eq_getElem hlt)
  exact ⟨t.toList[n], lookup_mono hgrown (lookup_eq_some_iff.mpr hget)⟩

/-- `holdsIn` in the set of the first atoms of a table is membership in what the table listed when
it had no others. -/
theorem holdsIn_ofList_atoms (hgrown : t.toList <+: t'.toList) {f : GroundFluent} :
    t'.holdsIn (.ofList t.atoms) f = true ↔ f ∈ t.toList := by
  rw [holdsIn_eq_true_iff]
  constructor
  · rintro ⟨⟨n⟩, hlookup, hn⟩
    have hlt : n < t.toList.length := by simpa [AtomSet.mem_ofList, atoms, Numbering.size,
      Numbering.toList] using hn
    have hget : t'.toList[n]? = some f :=
      (Numbering.get?_eq_getElem? t' n).symm.trans (lookup_eq_some_iff.mp hlookup)
    obtain ⟨rest, hrest⟩ := hgrown
    rw [← hrest, List.getElem?_append_left hlt] at hget
    exact List.mem_of_getElem? hget
  · intro hf
    obtain ⟨n, hn⟩ := List.mem_iff_getElem?.mp hf
    have hlookup : t.lookup f = some ⟨n⟩ :=
      lookup_eq_some_iff.mpr ((Numbering.get?_eq_getElem? t n).trans hn)
    refine ⟨⟨n⟩, lookup_mono hgrown hlookup, AtomSet.mem_ofList.mpr ?_⟩
    have hlt : n < t.toList.length := (List.getElem?_eq_some_iff.mp hn).1
    simpa [atoms, Numbering.size, Numbering.toList] using hlt

end AtomTable

/-- **What holds by default**: `holdsIn` in the first set of atoms is `defaultOf` of the
declarations, in every table that extends the first one. -/
theorem Domain.holdsIn_defaults (d : Domain α) (hgrown : d.defaults.1.toList <+: t.toList) :
    t.holdsIn d.defaults.2 = d.declarations.defaultOf := by
  funext f
  rw [Bool.eq_iff_iff, ← Universe.mem_defaultTrue, ← Numbering.mem_toList_ofList]
  exact AtomTable.holdsIn_ofList_atoms hgrown

/-! ### Actions -/

namespace Instance

variable {x : Instance α}

/-- The atoms that `atomOf` gives for templates are those of the ground fluents that `bind` gives
for them. -/
theorem forall₂_bind {templates : List Template} {atoms : List AtomId}
    (h : List.Forall₂ (fun τ r => t.atomOf x.tuple τ = some r) templates atoms) :
    List.Forall₂ (fun r f => t.lookup f = some r) atoms (x.bind templates) := by
  induction h with
  | nil => exact .nil
  | cons hfirst _ ih =>
      obtain ⟨f, hf, hlookup⟩ := Option.bind_eq_some_iff.mp hfirst
      rw [bind, List.filterMap_cons_some hf]
      exact .cons hlookup ih

/-- Literals of templates with values denote the ground fluents that the templates stand for, with
the same values. -/
theorem forall₂_bindValues {values : List (Template × Bool)} {literals : List Literal}
    (h : List.Forall₂ (fun y l => t.atomOf x.tuple y.1 = some l.atom ∧ l.value = y.2) values
      literals) : List.Forall₂ t.Denotes literals (x.bindValues values) := by
  induction h with
  | nil => exact .nil
  | @cons y l _ _ hfirst _ ih =>
      obtain ⟨f, hf, hlookup⟩ := Option.bind_eq_some_iff.mp hfirst.1
      simp only [bindValues, List.filterMap_cons, hf, Option.map_some]
      exact .cons ⟨hlookup, hfirst.2⟩ ih

/-- Literals listed with times denote, at the times that `p` picks, what the templates listed with
the same times stand for. -/
theorem forall₂_filter {β τ : Type} {items : List β} {literals : List (τ × Literal)}
    {timing : β → τ} {fluent : β → Template} {value : β → Bool}
    (h : List.Forall₂ (fun b y => ∃ r, t.atomOf x.tuple (fluent b) = some r ∧
      y = (timing b, ⟨r, value b⟩)) items literals) (p : τ → Bool) :
    List.Forall₂ t.Denotes ((literals.filter fun y => p y.1).map Prod.snd)
      (x.bindValues ((items.filter fun b => p (timing b)).map fun b => (fluent b, value b))) := by
  refine forall₂_bindValues ?_
  rw [List.forall₂_map_left_iff, List.forall₂_map_right_iff]
  refine (List.rel_filter ?_ h).imp ?_
  · rintro b _ ⟨r, -, rfl⟩
    exact Iff.rfl
  · rintro b _ ⟨r, hr, rfl⟩
    exact ⟨hr, rfl⟩

end Instance

/-- A ground action **embodies** an instance: its `args` are the tuple, and it `Instantiates` the
schema. -/
structure GroundAction.Embodies (t : AtomTable) (a : GroundAction α) (x : Instance α) : Prop where
  args : a.args = x.tuple
  instantiates : a.Instantiates t x.schema

namespace GroundAction.Embodies

variable {a b : GroundAction α} {x y : Instance α}

/-- The conditions of the action at some times denote those of the instance. -/
theorem conditionsAt (h : a.Embodies t x) (timings : List Timing) :
    List.Forall₂ t.Denotes (a.conditionsAt timings) (x.conditionsAt timings) :=
  Instance.forall₂_filter (h.args ▸ h.instantiates.conditions) timings.contains

/-- The effects of the action at one time denote those of the instance. -/
theorem effectsAt (h : a.Embodies t x) (timing : EffectTiming) :
    List.Forall₂ t.Denotes (a.effectsAt timing) (x.effectsAt timing) :=
  Instance.forall₂_filter (h.args ▸ h.instantiates.effects) (· == timing)

/-- The groups of the action denote those of the instance. -/
theorem groups (h : a.Embodies t x) :
    List.Forall₂ (EffectGroup.Denotes t) a.groups x.groups := by
  rw [Instance.groups, List.forall₂_map_right_iff]
  refine h.instantiates.groups.flip.imp ?_
  rintro g s ⟨htargets, hlaw, hbindings⟩
  exact ⟨Instance.forall₂_bind (h.args ▸ htargets), hlaw, hbindings.trans h.args⟩

/-- The resources of the action are the atoms of the resources of the instance. -/
theorem resources (h : a.Embodies t x) : ∃ atoms, a.resources = .ofList atoms ∧
    List.Forall₂ (fun r f => t.lookup f = some r) atoms x.resources := by
  obtain ⟨atoms, hatoms, hresources⟩ := h.instantiates.resources
  exact ⟨atoms, hresources, Instance.forall₂_bind (h.args ▸ hatoms)⟩

/-- **Resources collide** for two actions exactly when they do for the instances: `AtomSet.disjoint`
is `Instance.compatible`, since `lookup` is injective. -/
theorem disjoint_resources (ha : a.Embodies t x) (hb : b.Embodies t y) :
    a.resources.disjoint b.resources = x.compatible y := by
  obtain ⟨left, hleft, hx⟩ := ha.resources
  obtain ⟨right, hright, hy⟩ := hb.resources
  rw [Bool.eq_iff_iff, AtomSet.disjoint_iff, hleft, hright, Instance.compatible, List.all_eq_true]
  simp only [AtomSet.mem_ofList, Bool.not_eq_true', List.contains_eq_mem, decide_eq_false_iff_not]
  constructor
  · intro h f hf hf'
    obtain ⟨r, hr, hlookup⟩ := exists_of_forall₂ hx.flip hf
    obtain ⟨r', hr', hlookup'⟩ := exists_of_forall₂ hy.flip hf'
    obtain rfl : r = r' := Option.some.inj (hlookup.symm.trans hlookup')
    exact h r hr hr'
  · intro h r hr hr'
    obtain ⟨f, hf, hlookup⟩ := exists_of_forall₂ hx hr
    obtain ⟨f', hf', hlookup'⟩ := exists_of_forall₂ hy hr'
    obtain rfl : f = f' := AtomTable.lookup_injective hlookup hlookup'
    exact h f hf hf'

end GroundAction.Embodies

/-! ### Pairs -/

/-- `List.zipIdx` keeps lists related, from any first number on. -/
theorem forall₂_zipIdx {β γ : Type} {R : β → γ → Prop} {l : List β} {l' : List γ}
    (h : List.Forall₂ R l l') (first : ℕ) :
    List.Forall₂ (fun x y => R x.1 y.1 ∧ x.2 = y.2) (l.zipIdx first) (l'.zipIdx first) := by
  induction h generalizing first with
  | nil => exact .nil
  | cons hfirst _ ih => exact .cons ⟨hfirst, rfl⟩ (ih (first + 1))

/-- The combinations that `combinePair` makes with one action are the pairs with its instance. -/
theorem map_positions_filterMap {a : GroundAction α} {x : Instance α} (ha : a.Embodies t x) (i : ℕ)
    {actions : List (GroundAction α × ℕ)} {xs : List (Instance α × ℕ)}
    (h : List.Forall₂ (fun b y => b.1.Embodies t y.1 ∧ b.2 = y.2) actions xs) :
    (actions.filterMap fun b => combinePair (a.convert, i) (b.1.convert, b.2)).map
        Combination.positions =
      (xs.filter fun y => x.compatible y.1).map fun y => (i, y.2) := by
  induction h with
  | nil => rfl
  | @cons b y _ _ hfirst _ ih =>
      have hcompatible : a.convert.resources.disjoint b.1.convert.resources = x.compatible y.1 :=
        ha.disjoint_resources hfirst.1
      rw [List.filterMap_cons, List.filter_cons, combinePair, hcompatible]
      cases x.compatible y.1 with
      | false => exact ih
      | true => exact congrArg₂ List.cons (congrArg (Prod.mk i) hfirst.2) ih

/-- **All combinations** of `combinePairs` are the `compatiblePairs` of the instances, in the same
order. -/
theorem map_positions_combinePairs {actions : List (GroundAction α × ℕ)}
    {xs : List (Instance α × ℕ)}
    (h : List.Forall₂ (fun b y => b.1.Embodies t y.1 ∧ b.2 = y.2) actions xs) :
    (combinePairs (actions.map fun b => (b.1.convert, b.2))).map Combination.positions =
      compatiblePairs xs := by
  induction h with
  | nil => rfl
  | @cons b y _ _ hfirst hrest ih =>
      rw [List.map_cons, combinePairs, compatiblePairs, List.map_append, ih, List.filterMap_map,
        ← hfirst.2]
      exact congrArg (· ++ _) (map_positions_filterMap hfirst.1 b.2 hrest)

/-! ### Ground problems -/

/-- A ground problem **embodies** a domain: its atoms stand for the values of the domain, and its
actions embody the instances in order, each of which has a tuple that suits its schema. -/
structure GroundProblem.Embodies (g : GroundProblem α) (d : Domain α) : Prop where
  declarations : g.core.declarations = d.declarations
  initial : g.core.atoms.holdsIn g.core.initial = d.initialValues
  known : ∀ a ∈ g.core.initial, ∃ f, g.core.atoms.lookup f = some a
  goals : List.Forall₂ g.core.atoms.Denotes g.core.goals d.goals
  deadline : g.core.deadline = d.deadline
  actions : List.Forall₂ (GroundAction.Embodies g.core.atoms) g.actions d.instances
  suits : ∀ x ∈ d.instances, x.schema ∈ d.schemas ∧ x.schema.Suits d.declarations x.tuple

namespace Domain

variable {d : Domain α}

/-- `instancesOf` a schema are those of the tuples that `tuplesFor` gives. -/
theorem instancesOf_eq {s : Schema α} {i : ℕ} {tuples : List (List ObjectId)}
    (h : d.tuplesFor ⟨i⟩ s = .ok tuples) : d.instancesOf (s, i) = tuples.map (⟨s, ·⟩) := by
  rw [tuplesFor] at h
  rw [instancesOf]
  split at h
  · next listed hlisted =>
    obtain ⟨⟨⟩, -, h⟩ := bind_eq_ok_iff.mp h
    obtain rfl := Except.ok.inj h
    rw [hlisted, Option.getD_some]
  · next hnone =>
    obtain rfl := Except.ok.inj h
    rw [hnone, Option.getD_none]

/-- **Grounding schemas**: the actions of `groundSchemas` embody the instances of the schemas, in
order, and each instance has a schema that `Suits` the declarations. -/
theorem groundSchemas_embodies {schemas : List (Schema α)} {next : ℕ}
    {actions : List (GroundAction α)} (h : d.groundSchemas next t schemas = .ok (actions, t')) :
    List.Forall₂ (GroundAction.Embodies t') actions
        ((schemas.zipIdx next).flatMap d.instancesOf) ∧
      ∀ x ∈ (schemas.zipIdx next).flatMap d.instancesOf,
        x.schema ∈ schemas ∧ x.schema.Suits d.declarations x.tuple := by
  induction schemas generalizing t next actions with
  | nil =>
      obtain ⟨rfl, rfl⟩ := Prod.mk.inj (Except.ok.inj h)
      exact ⟨.nil, by simp⟩
  | cons s rest ih =>
      simp only [groundSchemas, bind_eq_ok_iff] at h
      obtain ⟨tuples, htuples, ⟨actions₁, t₁⟩, hfirst, ⟨others, t₂⟩, hrest, h⟩ := h
      obtain ⟨rfl, rfl⟩ := Prod.mk.inj (Except.ok.inj h)
      obtain ⟨-, hactions⟩ := Schema.instantiateAll_eq_ok hfirst
      obtain ⟨hgrow, -⟩ := groundSchemas_eq_ok hrest
      obtain ⟨hothers, hsuits⟩ := ih hrest
      rw [List.zipIdx_cons, List.flatMap_cons, instancesOf_eq htuples]
      refine ⟨List.rel_append ?_ hothers, fun x hx => ?_⟩
      · rw [List.forall₂_map_right_iff]
        exact hactions.flip.imp fun _ _ hinst => ⟨hinst.2.1, hinst.2.2.mono hgrow⟩
      · rcases List.mem_append.mp hx with hx | hx
        · obtain ⟨tuple, htuple, rfl⟩ := List.mem_map.mp hx
          exact ⟨List.mem_cons_self, suits_of_tuplesFor htuples tuple htuple⟩
        · exact ⟨List.mem_cons_of_mem s (hsuits x hx).1, (hsuits x hx).2⟩

/-- **Grounding a domain** gives a ground problem that `Embodies` it. -/
theorem embodies_of_ground {g : GroundProblem α} (h : d.ground = .ok g) : g.Embodies d := by
  simp only [ground, bind_eq_ok_iff] at h
  obtain ⟨⟨initial, t₁⟩, hinitial, ⟨goals, t₂⟩, hgoals, ⟨actions, t₃⟩, hactions, h⟩ := h
  obtain rfl := Except.ok.inj h
  obtain ⟨hgrow₁, hinitial⟩ := AtomTable.internLiterals_eq_ok hinitial
  obtain ⟨hgrow₂, hgoals⟩ := AtomTable.internLiterals_eq_ok hgoals
  obtain ⟨hgrow₃, -⟩ := groundSchemas_eq_ok hactions
  obtain ⟨hactions, hsuits⟩ := groundSchemas_embodies hactions
  have hinitial : List.Forall₂ t₃.Denotes initial d.initial :=
    hinitial.imp fun _ _ => .mono (hgrow₂.trans hgrow₃)
  have hgrow := hgrow₁.trans (hgrow₂.trans hgrow₃)
  refine ⟨rfl, ?_, fun a ha => ?_, hgoals.imp fun _ _ => .mono hgrow₃, rfl, hactions, hsuits⟩
  · have hassigned := AtomTable.holdsIn_assignAll hinitial d.defaults.2
    rw [holdsIn_defaults d hgrow] at hassigned
    funext f
    rw [initialValues, ← Valuation.setAll_apply, ← hassigned]
    rfl
  · by_cases hassigned : ∃ l ∈ initial, l.atom = a
    · obtain ⟨l, hl, rfl⟩ := hassigned
      obtain ⟨x, -, hlookup, -⟩ := exists_of_forall₂ hinitial hl
      exact ⟨x.1, hlookup⟩
    · have hkept : a ∈ d.defaults.2.assignAll initial ↔ a ∈ d.defaults.2 :=
        AtomSet.mem_assignAll_of_forall_ne fun l hl hla => hassigned ⟨l, hl, hla⟩
      exact AtomTable.exists_lookup_of_mem_atoms hgrow (AtomSet.mem_ofList.mp (hkept.mp ha))

end Domain

/-! ### Processes -/

/-- The process of a ground problem for each way of compiling it. -/
def Compilation.process [Arithmetic α] (c : Compilation) (g : GroundProblem α) (discount : α) :
    Except (MdpError α) (Mdp α) :=
  match c with
  | .split => Mdp.ofConverted g.convert discount
  | .pairs => Mdp.ofCombination g.convert.combine discount
  | .combinablePairs => Mdp.ofCombination g.convert.combine.dropUncombinable discount

namespace GroundProblem.Embodies

variable {g : GroundProblem α} {d : Domain α} (h : g.Embodies d)

include h

/-- The combinations of the problem are the pairs of the domain. -/
theorem map_positions_combine :
    g.convert.combine.combinations.map Combination.positions = d.pairs .pairs := by
  have hpairs := map_positions_combinePairs (forall₂_zipIdx h.actions 0)
  rw [Domain.pairs, ← hpairs, ConvertedProblem.combine, convert, List.zipIdx_map]
  rfl

variable [Arithmetic α] {discount : α} {m : Mdp α}

end GroundProblem.Embodies

end DurativePlanning
