import DurativePlanning.Problem.Ground
import DurativePlanning.Proofs.Checks
import DurativePlanning.Proofs.Numbering
import Mathlib.Data.List.Forall2

/-!
# What Grounding Produces

Grounding threads the table of atoms through all schemas, and every mention of a ground fluent may
extend it. Read back through the final table, each ground action is its schema with the tuple put
in for the parameters. The proof is one lemma per stage: the table grows, and what the stage
produced is read back through the table it leaves.

* `AtomTable.atomOf`: the atom that a template stands for under some bindings.
* `GroundAction.Instantiates`: a ground action is an instance of a schema.
* `Domain.ground_instantiates`: every ground action is an instance of the schema it names.
-/

namespace DurativePlanning

variable {α : Type} {u : Universe} {t t' : AtomTable}

/-- The atom that a template stands for under some bindings, if it has one: `Template.bind`, and
then `lookup`. -/
def AtomTable.atomOf (t : AtomTable) (bindings : List ObjectId) (template : Template) :
    Option AtomId :=
  (template.bind bindings).bind t.lookup

/-- A ground action is **an instance of a schema** under its arguments: what it mentions are the
atoms of the templates of the schema, with the same times and values and in the same order. -/
structure GroundAction.Instantiates (t : AtomTable) (s : Schema α) (a : GroundAction α) : Prop where
  duration : a.duration = s.duration
  combinable : a.combinable = s.combinable
  conditions : List.Forall₂ (fun c x => ∃ r, t.atomOf a.args c.fluent = some r ∧
    x = (c.timing, ⟨r, c.value⟩)) s.conditions a.conditions
  effects : List.Forall₂ (fun e x => ∃ r, t.atomOf a.args e.fluent = some r ∧
    x = (e.timing, ⟨r, e.value⟩)) s.effects a.effects
  resources : ∃ atoms, List.Forall₂ (fun τ r => t.atomOf a.args τ = some r) s.resources atoms ∧
    a.resources = .ofList atoms
  groups : List.Forall₂ (fun g x => List.Forall₂ (fun τ r => t.atomOf a.args τ = some r)
    g.targets x.targets ∧ x.law = g.law ∧ x.bindings = a.args) s.groups a.groups

/-! ### Lists place by place -/

/-- `List.Forall₂` relates each member of a list to one of the other list. -/
theorem exists_of_forall₂ {β γ : Type} {R : β → γ → Prop} {l : List β} {l' : List γ}
    (h : List.Forall₂ R l l') {x : β} (hx : x ∈ l) : ∃ y ∈ l', R x y := by
  induction h with
  | nil => exact absurd hx List.not_mem_nil
  | cons hfirst _ ih =>
      rcases List.mem_cons.mp hx with rfl | hx
      · exact ⟨_, List.mem_cons_self, hfirst⟩
      · obtain ⟨y, hy, hR⟩ := ih hx
        exact ⟨y, List.mem_cons_of_mem _ hy, hR⟩

/-- `List.zipWith` of items with the atoms of what they mention gives each item its atom. -/
theorem forall₂_zipWith {β γ : Type} {P : Template → AtomId → Prop} {fluent : β → Template}
    {make : β → AtomId → γ} {items : List β} {atoms : List AtomId}
    (h : List.Forall₂ P (items.map fluent) atoms) :
    List.Forall₂ (fun b x => ∃ r, P (fluent b) r ∧ x = make b r) items
      (items.zipWith make atoms) := by
  induction items generalizing atoms with
  | nil => exact .nil
  | cons b rest ih =>
      cases h with
      | cons hfirst hrest => exact .cons ⟨_, hfirst, rfl⟩ (ih hrest)

namespace AtomTable

variable {schema : String} {bindings : List ObjectId}

/-- `atomOf` is kept as the table grows. -/
theorem atomOf_mono (hgrown : t.toList <+: t'.toList) {τ : Template} {r : AtomId}
    (h : t.atomOf bindings τ = some r) : t'.atomOf bindings τ = some r := by
  obtain ⟨f, hf, hlookup⟩ := Option.bind_eq_some_iff.mp h
  exact Option.bind_eq_some_iff.mpr ⟨f, hf, lookup_mono hgrown hlookup⟩

/-- Lists of templates keep their atoms as the table grows. -/
theorem forall₂_atomOf_mono (hgrown : t.toList <+: t'.toList) {templates : List Template}
    {atoms : List AtomId}
    (h : List.Forall₂ (fun τ r => t.atomOf bindings τ = some r) templates atoms) :
    List.Forall₂ (fun τ r => t'.atomOf bindings τ = some r) templates atoms :=
  h.imp fun _ _ hτ => atomOf_mono hgrown hτ

/-! ### Numbering -/

/-- When `internChecked` succeeds it is `internAtom`. -/
theorem internChecked_eq_ok {f : GroundFluent} {r : AtomId}
    (h : t.internChecked u f = .ok (r, t')) : t.internAtom f = (r, t') := by
  rw [internChecked, bind_eq_ok_iff] at h
  obtain ⟨-, -, h⟩ := h
  exact Except.ok.inj h

/-- `internChecked` only extends the table. -/
theorem prefix_of_internChecked {f : GroundFluent} {r : AtomId}
    (h : t.internChecked u f = .ok (r, t')) : t.toList <+: t'.toList := by
  have ht : (t.internAtom f).2 = t' := congrArg Prod.snd (internChecked_eq_ok h)
  exact ht ▸ t.prefix_intern f

/-- `internChecked` of a well-typed ground fluent that is listed gives its number, and leaves the
table as it is. -/
theorem internChecked_of_mem {f : GroundFluent} (hf : f ∈ t.toList)
    (hsignature : u.checkSignature f = .ok ()) :
    t.internChecked u f = .ok (⟨t.toList.idxOf f⟩, t) := by
  rw [internChecked, hsignature, internAtom, Numbering.intern_of_mem hf]
  rfl

/-- **Numbering a template**: `internTemplate` extends the table, and the template then stands for
its number. -/
theorem internTemplate_eq_ok {τ : Template} {r : AtomId}
    (h : t.internTemplate u schema bindings τ = .ok (r, t')) :
    t.toList <+: t'.toList ∧ t'.atomOf bindings τ = some r := by
  rw [internTemplate] at h
  split at h
  · exact absurd h (by simp)
  · next f hf =>
    refine ⟨prefix_of_internChecked h, ?_⟩
    have hlookup := lookup_internAtom t f
    rw [internChecked_eq_ok h] at hlookup
    exact Option.bind_eq_some_iff.mpr ⟨f, hf, hlookup⟩

/-- **Numbering templates** in order: `internTemplates` extends the table, and each template then
stands for its number. -/
theorem internTemplates_eq_ok {templates : List Template} {atoms : List AtomId}
    (h : internTemplates u schema bindings t templates = .ok (atoms, t')) :
    t.toList <+: t'.toList ∧
      List.Forall₂ (fun τ r => t'.atomOf bindings τ = some r) templates atoms := by
  induction templates generalizing t atoms with
  | nil =>
      obtain ⟨rfl, rfl⟩ := Prod.mk.inj (Except.ok.inj h)
      exact ⟨List.prefix_rfl, .nil⟩
  | cons τ rest ih =>
      simp only [internTemplates, bind_eq_ok_iff] at h
      obtain ⟨⟨r, t₁⟩, hfirst, ⟨atoms₁, t₂⟩, hrest, h⟩ := h
      obtain ⟨rfl, rfl⟩ := Prod.mk.inj (Except.ok.inj h)
      obtain ⟨hgrow, hτ⟩ := internTemplate_eq_ok hfirst
      obtain ⟨hgrow', hatoms⟩ := ih hrest
      exact ⟨hgrow.trans hgrow', .cons (atomOf_mono hgrow' hτ) hatoms⟩

/-- **Numbering the targets of groups** in order: `internGroups` extends the table and keeps the
laws. -/
theorem internGroups_eq_ok {schemas : List (EffectSchema α)} {groups : List (EffectGroup α)}
    (h : internGroups u schema bindings t schemas = .ok (groups, t')) :
    t.toList <+: t'.toList ∧
      List.Forall₂ (fun g x => List.Forall₂ (fun τ r => t'.atomOf bindings τ = some r)
        g.targets x.targets ∧ x.law = g.law ∧ x.bindings = bindings) schemas groups := by
  induction schemas generalizing t groups with
  | nil =>
      obtain ⟨rfl, rfl⟩ := Prod.mk.inj (Except.ok.inj h)
      exact ⟨List.prefix_rfl, .nil⟩
  | cons g rest ih =>
      simp only [internGroups, bind_eq_ok_iff] at h
      obtain ⟨⟨targets, t₁⟩, hfirst, ⟨groups₁, t₂⟩, hrest, h⟩ := h
      obtain ⟨rfl, rfl⟩ := Prod.mk.inj (Except.ok.inj h)
      obtain ⟨hgrow, htargets⟩ := internTemplates_eq_ok hfirst
      obtain ⟨hgrow', hgroups⟩ := ih hrest
      exact ⟨hgrow.trans hgrow',
        .cons ⟨forall₂_atomOf_mono hgrow' htargets, rfl, rfl⟩ hgroups⟩

end AtomTable

/-! ### Actions -/

/-- `Instantiates` is kept as the table grows. -/
theorem GroundAction.Instantiates.mono (hgrown : t.toList <+: t'.toList) {s : Schema α}
    {a : GroundAction α} (h : a.Instantiates t s) : a.Instantiates t' s where
  duration := h.duration
  combinable := h.combinable
  conditions := h.conditions.imp fun _ _ ⟨r, hr, hx⟩ =>
    ⟨r, AtomTable.atomOf_mono hgrown hr, hx⟩
  effects := h.effects.imp fun _ _ ⟨r, hr, hx⟩ => ⟨r, AtomTable.atomOf_mono hgrown hr, hx⟩
  resources :=
    let ⟨atoms, hatoms, hresources⟩ := h.resources
    ⟨atoms, AtomTable.forall₂_atomOf_mono hgrown hatoms, hresources⟩
  groups := h.groups.imp fun _ _ ⟨htargets, hlaw⟩ =>
    ⟨AtomTable.forall₂_atomOf_mono hgrown htargets, hlaw⟩

/-- The resources of an instance are the atoms of the resources of the schema. -/
theorem GroundAction.Instantiates.mem_resources {s : Schema α} {a : GroundAction α}
    (h : a.Instantiates t s) {r : AtomId} :
    r ∈ a.resources ↔ ∃ τ ∈ s.resources, t.atomOf a.args τ = some r := by
  obtain ⟨atoms, hatoms, hresources⟩ := h.resources
  rw [hresources, AtomSet.mem_ofList]
  constructor
  · intro hr
    obtain ⟨τ, hτ, hbound⟩ := exists_of_forall₂ hatoms.flip hr
    exact ⟨τ, hτ, hbound⟩
  · rintro ⟨τ, hτ, hbound⟩
    obtain ⟨r', hr', hbound'⟩ := exists_of_forall₂ hatoms hτ
    exact Option.some.inj (hbound'.symm.trans hbound) ▸ hr'

namespace Schema

variable {s : Schema α} {id : SchemaId}

/-- **Applying a schema**: `instantiate` with a tuple extends the table and gives an action that
`Instantiates` the schema. -/
theorem instantiate_eq_ok {tuple : List ObjectId} {a : GroundAction α}
    (h : s.instantiate u id t tuple = .ok (a, t')) :
    t.toList <+: t'.toList ∧ a.schema = id ∧ a.args = tuple ∧ a.Instantiates t' s := by
  simp only [instantiate, bind_eq_ok_iff] at h
  obtain ⟨⟨conditions, t₁⟩, hconditions, ⟨effects, t₂⟩, heffects, ⟨resources, t₃⟩, hresources,
    ⟨groups, t₄⟩, hgroups, h⟩ := h
  obtain ⟨rfl, rfl⟩ := Prod.mk.inj (Except.ok.inj h)
  obtain ⟨hgrow₁, hconditions⟩ := AtomTable.internTemplates_eq_ok hconditions
  obtain ⟨hgrow₂, heffects⟩ := AtomTable.internTemplates_eq_ok heffects
  obtain ⟨hgrow₃, hresources⟩ := AtomTable.internTemplates_eq_ok hresources
  obtain ⟨hgrow₄, hgroups⟩ := AtomTable.internGroups_eq_ok hgroups
  refine ⟨hgrow₁.trans (hgrow₂.trans (hgrow₃.trans hgrow₄)), rfl, rfl, ?_⟩
  exact {
    duration := rfl
    combinable := rfl
    conditions := forall₂_zipWith (AtomTable.forall₂_atomOf_mono
      (hgrow₂.trans (hgrow₃.trans hgrow₄)) hconditions)
    effects := forall₂_zipWith (AtomTable.forall₂_atomOf_mono (hgrow₃.trans hgrow₄) heffects)
    resources := ⟨resources, AtomTable.forall₂_atomOf_mono hgrow₄ hresources, rfl⟩
    groups := hgroups }

/-- **Applying a schema to tuples**: `instantiateAll` gives one instance per tuple, in order. -/
theorem instantiateAll_eq_ok {tuples : List (List ObjectId)} {actions : List (GroundAction α)}
    (h : s.instantiateAll u id t tuples = .ok (actions, t')) :
    t.toList <+: t'.toList ∧ List.Forall₂ (fun tuple a => a.schema = id ∧ a.args = tuple ∧
      a.Instantiates t' s) tuples actions := by
  induction tuples generalizing t actions with
  | nil =>
      obtain ⟨rfl, rfl⟩ := Prod.mk.inj (Except.ok.inj h)
      exact ⟨List.prefix_rfl, .nil⟩
  | cons tuple rest ih =>
      simp only [instantiateAll, bind_eq_ok_iff] at h
      obtain ⟨⟨a, t₁⟩, hfirst, ⟨actions₁, t₂⟩, hrest, h⟩ := h
      obtain ⟨rfl, rfl⟩ := Prod.mk.inj (Except.ok.inj h)
      obtain ⟨hgrow, hid, hargs, ha⟩ := instantiate_eq_ok hfirst
      obtain ⟨hgrow', hactions⟩ := ih hrest
      exact ⟨hgrow.trans hgrow', .cons ⟨hid, hargs, ha.mono hgrow'⟩ hactions⟩

end Schema

namespace Domain

variable {d : Domain α}

/-- **Grounding schemas** from a number on: each action of `groundSchemas` is an instance of the
schema it names. -/
theorem groundSchemas_eq_ok {schemas : List (Schema α)} {next : ℕ}
    {actions : List (GroundAction α)} (h : d.groundSchemas next t schemas = .ok (actions, t')) :
    t.toList <+: t'.toList ∧ ∀ a ∈ actions, ∃ i s, schemas[i]? = some s ∧
      a.schema = ⟨next + i⟩ ∧ a.Instantiates t' s := by
  induction schemas generalizing t next actions with
  | nil =>
      obtain ⟨rfl, rfl⟩ := Prod.mk.inj (Except.ok.inj h)
      exact ⟨List.prefix_rfl, by simp⟩
  | cons s rest ih =>
      simp only [groundSchemas, bind_eq_ok_iff] at h
      obtain ⟨tuples, -, ⟨actions₁, t₁⟩, hfirst, ⟨others, t₂⟩, hrest, h⟩ := h
      obtain ⟨rfl, rfl⟩ := Prod.mk.inj (Except.ok.inj h)
      obtain ⟨hgrow, hactions⟩ := Schema.instantiateAll_eq_ok hfirst
      obtain ⟨hgrow', hothers⟩ := ih hrest
      refine ⟨hgrow.trans hgrow', fun a ha => ?_⟩
      rcases List.mem_append.mp ha with ha | ha
      · obtain ⟨tuple, -, hid, -, hinst⟩ := exists_of_forall₂ hactions.flip ha
        exact ⟨0, s, rfl, hid, hinst.mono hgrow'⟩
      · obtain ⟨i, s', hs', hid, hinst⟩ := hothers a ha
        exact ⟨i + 1, s', hs', by rw [hid, Nat.add_right_comm]; rfl, hinst⟩

/-- **Every ground action is an instance** of the schema it names: it `Instantiates` it through the
table of the ground problem. -/
theorem ground_instantiates {g : GroundProblem α} (h : d.ground = .ok g) :
    ∀ a ∈ g.actions, ∃ s, d.schema? a.schema = some s ∧ a.Instantiates g.core.atoms s := by
  simp only [ground, bind_eq_ok_iff] at h
  obtain ⟨⟨initial, t₁⟩, -, ⟨goals, t₂⟩, -, ⟨actions, t₃⟩, hactions, h⟩ := h
  obtain rfl := Except.ok.inj h
  intro a ha
  obtain ⟨i, s, hs, hid, hinst⟩ := (groundSchemas_eq_ok hactions).2 a ha
  refine ⟨s, ?_, hinst⟩
  rw [schema?, hid, Nat.zero_add]
  exact hs

end Domain

end DurativePlanning
