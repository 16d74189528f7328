import DurativePlanning.Proofs.ClosedWorld.Ground
import DurativePlanning.Proofs.Problem.Faults
import Mathlib.Data.List.Sort

/-!
# What Grounding Enumerates

Grounding goes through the schemas in order. A schema that is restricted to some tuples is applied
to these, as they are listed; any other schema is applied to all tuples of the right types, in
lexicographic order of their objects. Through the final table each action is read back as its schema
with the tuple put in, and the initial set as the initial values. This module says so without
reference to how products are formed, sets are folded, or the table grows.

* `Universe.Enumerates`: all tuples of given types, each once, in lexicographic order.
* `Universe.Enumerates.unique`, `Universe.enumerates_tuplesOf`: there is one such list, and the
  product of the objects of the types is it.
* `GroundAction.Reads`: an action that is read back as a schema applied to a tuple.
* `AtomTable.WellTyped`: kept by everything that numbers ground fluents.
* `Domain.HoldsInitially`: the initial values of a domain.
* `Domain.ground_enumerates`: all of it.
-/

namespace DurativePlanning

variable {α : Type} {u : Universe} {t t' : AtomTable}

/-! ### Tuples in order -/

/-- One tuple **precedes** another one when its object is declared first at the first place at which
they differ, by `List.Lex` on the indices. -/
def Precedes (x y : List ObjectId) : Prop := List.Lex (fun a b => a.index < b.index) x y

instance : Std.Irrefl Precedes := ⟨List.lex_irrefl fun o => Nat.lt_irrefl o.index⟩

instance : Std.Antisymm Precedes :=
  ⟨fun _ _ h h' => absurd h (List.lex_asymm (fun hab => Nat.lt_asymm hab) h')⟩

/-- `tuplesOver` ascending lists is in lexicographic order. -/
theorem pairwise_tuplesOver {lists : List (List ObjectId)}
    (h : ∀ options ∈ lists, options.Pairwise fun a b => a.index < b.index) :
    (tuplesOver lists).Pairwise Precedes := by
  induction lists with
  | nil => exact List.pairwise_singleton _ _
  | cons options rest ih =>
      rw [List.forall_mem_cons] at h
      rw [tuplesOver, List.pairwise_flatMap]
      constructor
      · intro a _
        rw [List.pairwise_map]
        exact (ih h.2).imp .cons
      · refine h.1.imp fun {a b} hab x hx y hy => ?_
        obtain ⟨x, -, rfl⟩ := List.mem_map.mp hx
        obtain ⟨y, -, rfl⟩ := List.mem_map.mp hy
        exact .rel hab

namespace Universe

/-- A list **enumerates** the tuples of given types when it holds all of them and no others, each
one once, in lexicographic order. -/
structure Enumerates (u : Universe) (types : List TypeId) (tuples : List (List ObjectId)) :
    Prop where
  mem_iff : ∀ tuple, tuple ∈ tuples ↔ tuple.map u.typeOf? = types.map some
  ascending : tuples.Pairwise Precedes

/-- `objectsOf` lists the objects of a type in the order of their declaration. -/
theorem pairwise_objectsOf (u : Universe) (type : TypeId) :
    (u.objectsOf type).Pairwise fun a b => a.index < b.index := by
  refine List.Pairwise.filter _ ?_
  rw [allObjects, List.pairwise_map]
  exact List.pairwise_lt_range

/-- **The product of the objects of some types**: `tuplesOf` enumerates the tuples of these
types. -/
theorem enumerates_tuplesOf (u : Universe) (types : List TypeId) :
    u.Enumerates types (u.tuplesOf types) where
  mem_iff _ := mem_tuplesOf
  ascending := pairwise_tuplesOver fun options hoptions => by
    obtain ⟨type, -, rfl⟩ := List.mem_map.mp hoptions
    exact u.pairwise_objectsOf type

namespace Enumerates

variable {types : List TypeId} {tuples tuples' : List (List ObjectId)}

/-- **There is only one list** that `Enumerates` the tuples of given types. -/
theorem unique (h : u.Enumerates types tuples) (h' : u.Enumerates types tuples') :
    tuples = tuples' :=
  h.ascending.eq_of_mem_iff h'.ascending fun tuple =>
    (h.mem_iff tuple).trans (h'.mem_iff tuple).symm

/-- No tuple is enumerated twice. -/
theorem nodup (h : u.Enumerates types tuples) : tuples.Nodup := h.ascending.nodup

/-- Without types there is just the empty tuple. -/
theorem eq_singleton_nil (h : u.Enumerates [] tuples) : tuples = [[]] :=
  h.unique (u.enumerates_tuplesOf [])

/-- There is no tuple when one of the types has no objects. -/
theorem eq_nil {type : TypeId} (h : u.Enumerates types tuples) (htype : type ∈ types)
    (hnone : ∀ o, u.typeOf? o ≠ some type) : tuples = [] := by
  refine List.eq_nil_iff_forall_not_mem.mpr fun tuple htuple => ?_
  have hmem : some type ∈ tuple.map u.typeOf? := by
    rw [(h.mem_iff tuple).mp htuple]
    exact List.mem_map_of_mem htype
  obtain ⟨o, -, ho⟩ := List.mem_map.mp hmem
  exact hnone o ho

end Enumerates

end Universe

/-! ### The table stays well-typed -/

namespace AtomTable.WellTyped

/-- `internChecked` keeps a table well-typed. -/
theorem internChecked (ht : t.WellTyped u) {f : GroundFluent} {a : AtomId}
    (h : t.internChecked u f = .ok (a, t')) : t'.WellTyped u := by
  obtain ⟨⟨⟩, hf, -⟩ := bind_eq_ok_iff.mp h
  obtain ⟨b, t₁, hnumbered, ht₁⟩ :=
    exists_internChecked ht (Universe.checkSignature_eq_ok_iff.mp hf)
  obtain ⟨-, rfl⟩ := Prod.mk.inj (Except.ok.inj (h.symm.trans hnumbered))
  exact ht₁

/-- `internLiterals` keeps a table well-typed. -/
theorem internLiterals (ht : t.WellTyped u) {values : List (GroundFluent × Bool)}
    {literals : List Literal} (h : internLiterals u t values = .ok (literals, t')) :
    t'.WellTyped u := by
  induction values generalizing t literals with
  | nil =>
      obtain ⟨-, rfl⟩ := Prod.mk.inj (Except.ok.inj h)
      exact ht
  | cons x rest ih =>
      simp only [AtomTable.internLiterals, bind_eq_ok_iff] at h
      obtain ⟨⟨a, t₁⟩, hfirst, ⟨literals₁, t₂⟩, hrest, h⟩ := h
      obtain ⟨-, rfl⟩ := Prod.mk.inj (Except.ok.inj h)
      exact ih (ht.internChecked hfirst) hrest

variable {schema : String} {bindings : List ObjectId}

/-- `internTemplates` keeps a table well-typed. -/
theorem internTemplates (ht : t.WellTyped u) {templates : List Template} {atoms : List AtomId}
    (h : internTemplates u schema bindings t templates = .ok (atoms, t')) : t'.WellTyped u := by
  induction templates generalizing t atoms with
  | nil =>
      obtain ⟨-, rfl⟩ := Prod.mk.inj (Except.ok.inj h)
      exact ht
  | cons τ rest ih =>
      simp only [AtomTable.internTemplates, bind_eq_ok_iff] at h
      obtain ⟨⟨a, t₁⟩, hfirst, ⟨atoms₁, t₂⟩, hrest, h⟩ := h
      obtain ⟨-, rfl⟩ := Prod.mk.inj (Except.ok.inj h)
      rw [internTemplate] at hfirst
      split at hfirst
      · exact absurd hfirst (by simp)
      · exact ih (ht.internChecked hfirst) hrest

/-- `internGroups` keeps a table well-typed. -/
theorem internGroups (ht : t.WellTyped u) {groups : List (EffectSchema α)}
    {ground : List (EffectGroup α)}
    (h : internGroups u schema bindings t groups = .ok (ground, t')) : t'.WellTyped u := by
  induction groups generalizing t ground with
  | nil =>
      obtain ⟨-, rfl⟩ := Prod.mk.inj (Except.ok.inj h)
      exact ht
  | cons g rest ih =>
      simp only [AtomTable.internGroups, bind_eq_ok_iff] at h
      obtain ⟨⟨targets, t₁⟩, hfirst, ⟨groups₁, t₂⟩, hrest, h⟩ := h
      obtain ⟨-, rfl⟩ := Prod.mk.inj (Except.ok.inj h)
      exact ih (ht.internTemplates hfirst) hrest

variable {s : Schema α} {id : SchemaId}

/-- `instantiate` keeps a table well-typed. -/
theorem instantiate (ht : t.WellTyped u) {tuple : List ObjectId} {a : GroundAction α}
    (h : s.instantiate u id t tuple = .ok (a, t')) : t'.WellTyped u := by
  simp only [Schema.instantiate, bind_eq_ok_iff] at h
  obtain ⟨⟨_, t₁⟩, hconditions, ⟨_, t₂⟩, heffects, ⟨_, t₃⟩, hresources, ⟨_, t₄⟩, hgroups, h⟩ := h
  obtain ⟨-, rfl⟩ := Prod.mk.inj (Except.ok.inj h)
  exact (((ht.internTemplates hconditions).internTemplates heffects).internTemplates
    hresources).internGroups hgroups

/-- `instantiateAll` keeps a table well-typed. -/
theorem instantiateAll (ht : t.WellTyped u) {tuples : List (List ObjectId)}
    {actions : List (GroundAction α)} (h : s.instantiateAll u id t tuples = .ok (actions, t')) :
    t'.WellTyped u := by
  induction tuples generalizing t actions with
  | nil =>
      obtain ⟨-, rfl⟩ := Prod.mk.inj (Except.ok.inj h)
      exact ht
  | cons tuple rest ih =>
      simp only [Schema.instantiateAll, bind_eq_ok_iff] at h
      obtain ⟨⟨a, t₁⟩, hfirst, ⟨actions₁, t₂⟩, hrest, h⟩ := h
      obtain ⟨-, rfl⟩ := Prod.mk.inj (Except.ok.inj h)
      exact ih (ht.instantiate hfirst) hrest

/-- `groundSchemas` keeps a table well-typed. -/
theorem groundSchemas {d : Domain α} (ht : t.WellTyped d.declarations) {next : ℕ}
    {schemas : List (Schema α)} {actions : List (GroundAction α)}
    (h : d.groundSchemas next t schemas = .ok (actions, t')) : t'.WellTyped d.declarations := by
  induction schemas generalizing t next actions with
  | nil =>
      obtain ⟨-, rfl⟩ := Prod.mk.inj (Except.ok.inj h)
      exact ht
  | cons s rest ih =>
      simp only [Domain.groundSchemas, bind_eq_ok_iff] at h
      obtain ⟨tuples, -, ⟨actions₁, t₁⟩, hfirst, ⟨others, t₂⟩, hrest, h⟩ := h
      obtain ⟨-, rfl⟩ := Prod.mk.inj (Except.ok.inj h)
      exact ih (ht.instantiateAll hfirst) hrest

end AtomTable.WellTyped

/-- **The table of a ground problem is `WellTyped`**, whether or not the domain was ever checked. -/
theorem Domain.wellTyped_of_ground {d : Domain α} {g : GroundProblem α} (h : d.ground = .ok g) :
    g.core.atoms.WellTyped d.declarations := by
  simp only [ground, bind_eq_ok_iff] at h
  obtain ⟨⟨initial, t₁⟩, hinitial, ⟨goals, t₂⟩, hgoals, ⟨actions, t₃⟩, hactions, h⟩ := h
  obtain rfl := Except.ok.inj h
  exact ((d.wellTyped_defaults.internLiterals hinitial).internLiterals hgoals).groundSchemas
    hactions

/-! ### Actions read back -/

/-- **An action that is read back as a schema applied to a tuple.** What it asks for, sets, draws
and keeps for itself are, through the table, the ground fluents that the templates of the schema
stand for, with the same times and values and in the same order; the law of a group sees the tuple.
All these templates stand for ground fluents of the table. -/
structure GroundAction.Reads (t : AtomTable) (u : Universe) (a : GroundAction α)
    (x : SchemaId × Instance α) : Prop where
  schema : a.schema = x.1
  args : a.args = x.2.tuple
  name : a.name = applied x.2.schema.name (x.2.tuple.map u.objectName)
  duration : a.duration = x.2.schema.duration
  combinable : a.combinable = x.2.schema.combinable
  conditions : a.conditions.map (fun y => (y.1, t.fluent? y.2.atom, y.2.value)) =
    x.2.schema.conditions.map fun c => (c.timing, c.fluent.bind x.2.tuple, c.value)
  effects : a.effects.map (fun y => (y.1, t.fluent? y.2.atom, y.2.value)) =
    x.2.schema.effects.map fun e => (e.timing, e.fluent.bind x.2.tuple, e.value)
  groups : a.groups.map (fun g => (g.targets.map t.fluent?, g.law, g.bindings)) =
    x.2.schema.groups.map fun g => (g.targets.map (·.bind x.2.tuple), g.law, x.2.tuple)
  resources : ∀ r, r ∈ a.resources ↔ ∃ τ ∈ x.2.schema.resources, ∃ f,
    τ.bind x.2.tuple = some f ∧ t.fluent? r = some f
  bound : ∀ τ ∈ x.2.schema.grounded, ∃ f, τ.bind x.2.tuple = some f ∧ f ∈ t.toList

/-- Lists that are related place by place have the same images, when related members do. -/
theorem map_eq_map_of_forall₂ {β γ δ : Type} {R : β → γ → Prop} {l : List β} {l' : List γ}
    {F : γ → δ} {G : β → δ} (h : List.Forall₂ R l l') (hR : ∀ x y, R x y → F y = G x) :
    l'.map F = l.map G := by
  induction h with
  | nil => rfl
  | cons hfirst _ ih => rw [List.map_cons, List.map_cons, hR _ _ hfirst, ih]

namespace AtomTable

variable {bindings : List ObjectId} {τ : Template} {r : AtomId}

/-- `fluent?` of the atom that `atomOf` gives for a template is the ground fluent that the template
stands for. -/
theorem fluent?_of_atomOf (h : t.atomOf bindings τ = some r) : t.fluent? r = τ.bind bindings := by
  obtain ⟨f, hf, hlookup⟩ := Option.bind_eq_some_iff.mp h
  rw [hf, lookup_eq_some_iff.mp hlookup]

/-- The ground fluent of an atom is in the table. -/
theorem mem_of_fluent? {f : GroundFluent} (h : t.fluent? r = some f) : f ∈ t.toList :=
  List.mem_of_getElem? ((Numbering.get?_eq_getElem? t r.index).symm.trans h)

/-- A template with an `atomOf` its own stands for a ground fluent of the table. -/
theorem exists_bind_of_atomOf (h : t.atomOf bindings τ = some r) :
    ∃ f, τ.bind bindings = some f ∧ f ∈ t.toList := by
  obtain ⟨f, hf, hlookup⟩ := Option.bind_eq_some_iff.mp h
  exact ⟨f, hf, mem_of_fluent? (lookup_eq_some_iff.mp hlookup)⟩

end AtomTable

namespace GroundAction.Instantiates

variable {s : Schema α} {a : GroundAction α}

/-- Everything that an instance of a schema mentions, its `grounded` templates, stands for a ground
fluent of the table. -/
theorem exists_bind (h : a.Instantiates t s) {τ : Template} (hτ : τ ∈ s.grounded) :
    ∃ f, τ.bind a.args = some f ∧ f ∈ t.toList := by
  simp only [Schema.grounded, List.mem_append, List.mem_map, List.mem_flatMap] at hτ
  rcases hτ with ((⟨c, hc, rfl⟩ | ⟨e, he, rfl⟩) | hτ) | ⟨g, hg, hτ⟩
  · obtain ⟨_, -, r, hr, -⟩ := exists_of_forall₂ h.conditions hc
    exact AtomTable.exists_bind_of_atomOf hr
  · obtain ⟨_, -, r, hr, -⟩ := exists_of_forall₂ h.effects he
    exact AtomTable.exists_bind_of_atomOf hr
  · obtain ⟨atoms, hatoms, -⟩ := h.resources
    obtain ⟨r, -, hr⟩ := exists_of_forall₂ hatoms hτ
    exact AtomTable.exists_bind_of_atomOf hr
  · obtain ⟨_, -, htargets, -⟩ := exists_of_forall₂ h.groups hg
    obtain ⟨r, -, hr⟩ := exists_of_forall₂ htargets hτ
    exact AtomTable.exists_bind_of_atomOf hr

/-- **An instance of a schema is read back** as the schema applied to its arguments. -/
theorem reads (h : a.Instantiates t s) (hname : a.name = applied s.name (a.args.map u.objectName)) :
    a.Reads t u (a.schema, ⟨s, a.args⟩) where
  schema := rfl
  args := rfl
  name := hname
  duration := h.duration
  combinable := h.combinable
  conditions := map_eq_map_of_forall₂ h.conditions fun c y ⟨r, hr, hy⟩ => by
    rw [hy, AtomTable.fluent?_of_atomOf hr]
  effects := map_eq_map_of_forall₂ h.effects fun e y ⟨r, hr, hy⟩ => by
    rw [hy, AtomTable.fluent?_of_atomOf hr]
  groups := map_eq_map_of_forall₂ h.groups fun g y ⟨htargets, hlaw, hbindings⟩ => by
    rw [hlaw, hbindings, map_eq_map_of_forall₂ htargets fun τ r => AtomTable.fluent?_of_atomOf]
  resources r := by
    simp only [h.mem_resources, AtomTable.atomOf, Option.bind_eq_some_iff,
      AtomTable.lookup_eq_some_iff]
  bound _ hτ := h.exists_bind hτ

end GroundAction.Instantiates

/-! ### Grounding -/

/-- The name that `instantiate` gives an action is that of the schema, `applied` to the names of the
objects. -/
theorem Schema.name_of_instantiate {s : Schema α} {id : SchemaId} {tuple : List ObjectId}
    {a : GroundAction α} (h : s.instantiate u id t tuple = .ok (a, t')) :
    a.name = applied s.name (tuple.map u.objectName) := by
  simp only [instantiate, bind_eq_ok_iff] at h
  obtain ⟨⟨_, t₁⟩, -, ⟨_, t₂⟩, -, ⟨_, t₃⟩, -, ⟨_, t₄⟩, -, h⟩ := h
  obtain ⟨rfl, -⟩ := Prod.mk.inj (Except.ok.inj h)
  rfl

/-- **Applying a schema to tuples**: read back through any later table, `instantiateAll` gives one
action for each tuple, in order. -/
theorem Schema.reads_of_instantiateAll {s : Schema α} {id : SchemaId}
    {tuples : List (List ObjectId)} {actions : List (GroundAction α)} {t'' : AtomTable}
    (h : s.instantiateAll u id t tuples = .ok (actions, t')) (hgrown : t'.toList <+: t''.toList) :
    List.Forall₂ (GroundAction.Reads t'' u) actions (tuples.map fun tuple => (id, ⟨s, tuple⟩)) := by
  induction tuples generalizing t actions with
  | nil =>
      obtain ⟨rfl, -⟩ := Prod.mk.inj (Except.ok.inj h)
      exact .nil
  | cons tuple rest ih =>
      simp only [instantiateAll, bind_eq_ok_iff] at h
      obtain ⟨⟨a, t₁⟩, hfirst, ⟨actions₁, t₂⟩, hrest, h⟩ := h
      obtain ⟨rfl, rfl⟩ := Prod.mk.inj (Except.ok.inj h)
      obtain ⟨-, rfl, rfl, ha⟩ := instantiate_eq_ok hfirst
      have hgrow := (instantiateAll_eq_ok hrest).1
      exact .cons ((ha.mono (hgrow.trans hgrown)).reads (name_of_instantiate hfirst)) (ih hrest)

namespace Domain

variable {d : Domain α}

/-- The instances of a schema, with the number of the schema. -/
def applicationsOf (d : Domain α) (x : Schema α × ℕ) : List (SchemaId × Instance α) :=
  (d.instancesOf x).map (⟨x.2⟩, ·)

/-- The instances of all schemas in order, each with the number of its schema. -/
def applications (d : Domain α) : List (SchemaId × Instance α) :=
  d.schemas.zipIdx.flatMap d.applicationsOf

/-- **Grounding schemas** from a number on: read back through any later table, the actions are the
instances in order. -/
theorem reads_of_groundSchemas {schemas : List (Schema α)} {next : ℕ}
    {actions : List (GroundAction α)} {t'' : AtomTable}
    (h : d.groundSchemas next t schemas = .ok (actions, t')) (hgrown : t'.toList <+: t''.toList) :
    List.Forall₂ (GroundAction.Reads t'' d.declarations) actions
      ((schemas.zipIdx next).flatMap d.applicationsOf) := by
  induction schemas generalizing t next actions with
  | nil =>
      obtain ⟨rfl, -⟩ := Prod.mk.inj (Except.ok.inj h)
      exact .nil
  | cons s rest ih =>
      simp only [groundSchemas, bind_eq_ok_iff] at h
      obtain ⟨tuples, htuples, ⟨actions₁, t₁⟩, hfirst, ⟨others, t₂⟩, hrest, h⟩ := h
      obtain ⟨rfl, rfl⟩ := Prod.mk.inj (Except.ok.inj h)
      have hgrow := (groundSchemas_eq_ok hrest).1
      have hactions := Schema.reads_of_instantiateAll hfirst (hgrow.trans hgrown)
      rw [List.zipIdx_cons, List.flatMap_cons, applicationsOf, instancesOf_eq htuples, List.map_map]
      exact List.rel_append hactions (ih hrest)

/-- **What holds initially**: a ground fluent whose last explicit value is true, or one without an
explicit value whose declaration says that it is true by default. -/
def HoldsInitially (d : Domain α) (f : GroundFluent) : Prop :=
  (∃ before after, d.initial = before ++ (f, true) :: after ∧ ∀ x ∈ after, x.1 ≠ f) ∨
    (∀ x ∈ d.initial, x.1 ≠ f) ∧
      ∃ decl, d.declarations.fluent? f.fluent = some decl ∧ decl.default = true

/-- `lookup` in the reversed list finds the value after which there are no others for the ground
fluent. -/
theorem lookup_reverse_eq_some_iff {values : List (GroundFluent × Bool)} {f : GroundFluent}
    {value : Bool} : values.reverse.lookup f = some value ↔
      ∃ before after, values = before ++ (f, value) :: after ∧ ∀ x ∈ after, x.1 ≠ f := by
  simp only [List.lookup_eq_some_iff, bne_iff_ne]
  constructor
  · rintro ⟨after, before, hvalues, hafter⟩
    refine ⟨before.reverse, after.reverse, ?_, fun x hx =>
      (hafter x (List.mem_reverse.mp hx)).symm⟩
    rw [← List.reverse_reverse values, hvalues]
    simp
  · rintro ⟨before, after, rfl, hafter⟩
    exact ⟨after.reverse, before.reverse, by simp, fun x hx =>
      (hafter x (List.mem_reverse.mp hx)).symm⟩

/-- `lookup` in the reversed list finds nothing when the ground fluent is not listed. -/
theorem lookup_reverse_eq_none_iff {values : List (GroundFluent × Bool)} {f : GroundFluent} :
    values.reverse.lookup f = none ↔ ∀ x ∈ values, x.1 ≠ f := by
  simp only [List.lookup_eq_none_iff, List.mem_reverse, bne_iff_ne, ne_comm]

/-- **The initial value** of a well-typed ground fluent is true when it `HoldsInitially`. -/
theorem initialValues_eq_true_iff {f : GroundFluent} (hf : d.declarations.WellTyped f) :
    d.initialValues f = true ↔ d.HoldsInitially f := by
  rw [initialValues, HoldsInitially, ← lookup_reverse_eq_some_iff, ← lookup_reverse_eq_none_iff]
  cases d.initial.reverse.lookup f with
  | some value => simp
  | none => simp [Universe.defaultOf, hf, Option.any_eq_true]

/-- **Grounding enumerates exactly the allowed instances.** When a domain is grounded,

* the actions are, in order, the instances of the schemas in order of declaration, each read back
  through the table as its schema applied to its tuple;
* the tuples of a schema are the listed ones, as they are listed, when the schema is restricted to
  some, and all tuples of the right types otherwise, each once and in lexicographic order. These are
  the empty tuple when there are no parameters, and none when a parameter type has no objects;
* an atom is in the initial set when its ground fluent holds initially;
* the goals, the deadline and the declarations are those of the domain, and all ground fluents of
  the table pass the check of signatures. -/
theorem ground_enumerates {g : GroundProblem α} (h : d.ground = .ok g) :
    List.Forall₂ (GroundAction.Reads g.core.atoms d.declarations) g.actions d.applications ∧
    (∀ x ∈ d.schemas.zipIdx, ∃ tuples : List (List ObjectId),
      d.applicationsOf x = tuples.map (fun tuple => (⟨x.2⟩, ⟨x.1, tuple⟩)) ∧
      (∀ listed, d.tuples? ⟨x.2⟩ = some listed → tuples = listed) ∧
      (d.tuples? ⟨x.2⟩ = none →
        d.declarations.Enumerates (x.1.params.map Prod.snd) tuples ∧
        (x.1.params = [] → tuples = [[]]) ∧
        ((∃ p ∈ x.1.params, ∀ o, d.declarations.typeOf? o ≠ some p.2) → tuples = []))) ∧
    (∀ a, a ∈ g.core.initial ↔ ∃ f, g.core.atoms.fluent? a = some f ∧ d.HoldsInitially f) ∧
    g.core.goals.map (fun l => (g.core.atoms.fluent? l.atom, l.value)) =
      d.goals.map (fun x => (some x.1, x.2)) ∧
    g.core.deadline = d.deadline ∧ g.core.declarations = d.declarations ∧
    ∀ f ∈ g.core.atoms.toList, d.declarations.checkSignature f = .ok () := by
  have hembodies := embodies_of_ground h
  have htable := wellTyped_of_ground h
  refine ⟨?_, ?_, fun a => ?_, ?_, hembodies.deadline, hembodies.declarations,
    fun f hf => Universe.checkSignature_eq_ok_iff.mpr (htable f hf)⟩
  · simp only [ground, bind_eq_ok_iff] at h
    obtain ⟨⟨initial, t₁⟩, -, ⟨goals, t₂⟩, -, ⟨actions, t₃⟩, hactions, h⟩ := h
    obtain rfl := Except.ok.inj h
    exact reads_of_groundSchemas hactions List.prefix_rfl
  · rintro ⟨s, i⟩ -
    refine ⟨(d.tuples? ⟨i⟩).getD (d.declarations.tuplesOf (s.params.map Prod.snd)), ?_, ?_, ?_⟩
    · rw [applicationsOf, instancesOf, List.map_map]
      rfl
    · intro listed hlisted
      rw [hlisted, Option.getD_some]
    · intro hnone
      rw [hnone, Option.getD_none]
      have hall := d.declarations.enumerates_tuplesOf (s.params.map Prod.snd)
      refine ⟨hall, fun hparams => ?_, ?_⟩
      · rw [hparams] at hall ⊢
        exact hall.eq_singleton_nil
      · rintro ⟨p, hp, htype⟩
        exact hall.eq_nil (List.mem_map_of_mem hp) htype
  · have hmem : ∀ {f}, g.core.atoms.fluent? a = some f →
        (a ∈ g.core.initial ↔ d.HoldsInitially f) := fun {f} hf => by
      rw [← initialValues_eq_true_iff (htable f (AtomTable.mem_of_fluent? hf)), ← hembodies.initial,
        AtomTable.holdsIn_of_lookup (AtomTable.lookup_eq_some_iff.mpr hf), AtomSet.contains_iff]
    constructor
    · intro ha
      obtain ⟨f, hlookup⟩ := hembodies.known a ha
      have hf := AtomTable.lookup_eq_some_iff.mp hlookup
      exact ⟨f, hf, (hmem hf).mp ha⟩
    · rintro ⟨f, hf, hholds⟩
      exact (hmem hf).mpr hholds
  · refine map_eq_map_of_forall₂ hembodies.goals.flip ?_
    rintro x l ⟨hlookup, hvalue⟩
    rw [AtomTable.lookup_eq_some_iff.mp hlookup, hvalue]

/-- A choir of two singers, who are present unless the domain says otherwise. Duets are sung by any
two, solos by those that are listed, and there is no hall to tour. -/
def choir : Domain ℚ where
  name := "choir"
  kind := .regular
  declarations := {
    types := #[⟨"singer"⟩, ⟨"hall"⟩]
    objects := #[⟨"alto", ⟨0⟩⟩, ⟨"bass", ⟨0⟩⟩]
    fluents := #[⟨"present", [⟨0⟩], true⟩] }
  schemas := [
    { name := "duet", params := [("first", ⟨0⟩), ("second", ⟨0⟩)], duration := 3,
      conditions := [⟨.overall, ⟨⟨0⟩, [.param 1]⟩, true⟩] },
    { name := "applause", duration := 0 },
    { name := "tour", params := [("where", ⟨1⟩)], duration := 9 },
    { name := "solo", params := [("who", ⟨0⟩)], duration := 2 }]
  initial := [(⟨⟨0⟩, [⟨0⟩]⟩, true), (⟨⟨0⟩, [⟨0⟩]⟩, false)]
  grounding := some ⟨[(⟨3⟩, [[⟨1⟩], [⟨0⟩], [⟨1⟩]])]⟩

/-- The choir has four duets, one applause, no tour and three solos. The alto, who is said to be
present and then not to be, is absent; the bass is present by default. -/
theorem ground_enumerates_choir : ∃ g, choir.ground = .ok g ∧
    g.actions.map (fun a => (a.schema.index, a.args.map (·.index))) =
      [(0, [0, 0]), (0, [0, 1]), (0, [1, 0]), (0, [1, 1]), (1, []), (3, [1]), (3, [0]), (3, [1])] ∧
    (∀ a, g.core.atoms.fluent? a = some ⟨⟨0⟩, [⟨0⟩]⟩ → a ∉ g.core.initial) ∧
    ∀ a, g.core.atoms.fluent? a = some ⟨⟨0⟩, [⟨1⟩]⟩ → a ∈ g.core.initial := by
  have hbuild : choir.build = .ok choir := rfl
  obtain ⟨g, hg⟩ : ∃ g, choir.ground = .ok g := by
    rcases (Configured.built hbuild).sound.ground_agrees with ⟨-, g, hg, -⟩ | ⟨e, hlisted, -⟩
    · exact ⟨g, hg⟩
    · have hok : choir.checkListed choir.listed = .ok () := rfl
      exact absurd (hok.symm.trans hlisted) (by simp)
  obtain ⟨hactions, -, hinitial, -⟩ := ground_enumerates hg
  refine ⟨g, hg, ?_, fun a ha hmem => ?_, fun a ha => ?_⟩
  · have hread : g.actions.map (fun a => (a.schema.index, a.args.map (·.index))) =
        choir.applications.map fun x => (x.1.index, x.2.tuple.map (·.index)) :=
      map_eq_map_of_forall₂ hactions.flip fun x a hx => by rw [hx.schema, hx.args]
    exact hread.trans rfl
  · obtain ⟨f, hf, hholds⟩ := (hinitial a).mp hmem
    obtain rfl := Option.some.inj (ha.symm.trans hf)
    have htyped : choir.declarations.WellTyped ⟨⟨0⟩, [⟨0⟩]⟩ := by decide
    exact absurd ((initialValues_eq_true_iff htyped).mpr hholds) (by decide)
  · exact (hinitial a).mpr ⟨_, ha, (initialValues_eq_true_iff (by decide)).mp (by decide)⟩

end Domain

end DurativePlanning
