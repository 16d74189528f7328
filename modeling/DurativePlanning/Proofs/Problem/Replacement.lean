import DurativePlanning.Proofs.Problem.Faults
import Mathlib.Logic.Relation

/-!
# Laws That Are Replaced

A domain is accepted when its values are well-typed, when the templates of its schemas fit, those of
the conditions of laws included, when laws assign only targets that are there, and when the
grounding map speaks of declared schemas. Replacing a law repeats only one of these checks: the one
of targets. So a domain in which laws were replaced still passes everything but the check of
conditions, and it passes that one too exactly when the conditions of its laws fit. A condition that
does not fit is not noticed when a law is replaced, while the same law is refused when the domain is
authored with it.

* `Law.assigned`: the targets that the outcomes of a law assign.
* `Domain.Fits`, `Domain.ConditionsFit`: what an accepted domain has passed, in two parts.
* `Domain.validate_eq_ok_iff`, `Domain.Fits.validate_eq_error`: these two parts are the whole check.
* `Domain.withLaw_eq_ok_iff`: which laws can be put in the place of another one.
* `Domain.relaws_check_targets`: domains in which laws were replaced any number of times.
-/

namespace DurativePlanning

variable {α : Type} {u : Universe}

/-- What holds of all members of `List.modify`: the property of the changed member, and of the
others as they are. -/
theorem forall_mem_modify_iff {β : Type} {l : List β} {i : ℕ} {f : β → β} {P : β → Prop} :
    (∀ x ∈ l.modify i f, P x) ↔
      (∀ x, l[i]? = some x → P (f x)) ∧ ∀ j x, j ≠ i → l[j]? = some x → P x := by
  simp only [List.mem_iff_getElem?, List.getElem?_modify]
  constructor
  · intro h
    refine ⟨fun x hx => h (f x) ⟨i, by simp [hx]⟩, fun j x hj hx => h x ⟨j, ?_⟩⟩
    simp [hx, Ne.symm hj]
  · rintro ⟨hchanged, hothers⟩ x ⟨j, hj⟩
    obtain ⟨y, hy, rfl⟩ := Option.map_eq_some_iff.mp hj
    by_cases hij : i = j
    · subst hij
      simpa using hchanged y hy
    · simpa [hij] using hothers j y (Ne.symm hij) hy

/-- When all members of a list have a property, those of the list of which one was changed do so
exactly when the changed member does. -/
theorem forall_mem_modify_iff_of_forall {β : Type} {l : List β} {i : ℕ} {f : β → β} {P : β → Prop}
    (hl : ∀ x ∈ l, P x) : (∀ x ∈ l.modify i f, P x) ↔ ∀ x, l[i]? = some x → P (f x) :=
  forall_mem_modify_iff.trans
    (and_iff_left fun _ x _ hx => hl x (List.mem_of_getElem? hx))

/-! ### Targets -/

/-- The targets that the outcomes of a law assign. -/
def Law.assigned (law : Law α) : List ℕ :=
  law.branches.flatten.flatMap fun o => o.assign.map Prod.fst

/-- **The check of targets**: `checkTargets` passes when the group has every target that the law
assigns. -/
theorem checkTargets_eq_ok_iff {schema : String} {group targets : ℕ} {law : Law α} :
    checkTargets schema group targets law = .ok () ↔ ∀ target ∈ law.assigned, target < targets := by
  rw [checkTargets]
  cases hmax : law.maxTarget? with
  | none =>
      have hnone : law.assigned = [] := List.max?_eq_none_iff.mp hmax
      simp [hnone]
  | some target =>
      obtain ⟨hmem, hle⟩ := List.max?_eq_some_iff.mp hmax
      by_cases hlt : target < targets
      · simp only [if_pos hlt, true_iff]
        exact fun other hother => Nat.lt_of_le_of_lt (hle other hother) hlt
      · simp only [if_neg hlt, reduceCtorEq, false_iff]
        exact fun h => hlt (h target hmem)

/-! ### Schemas -/

namespace Schema

variable {s : Schema α} {group : ℕ} {law : Law α}

/-- The same schema, authored with another law for one of its groups. -/
def withLaw (s : Schema α) (group : ℕ) (law : Law α) : Schema α :=
  { s with groups := s.groups.modify group fun g => { g with law } }

/-- A schema **fits** when it is `Accepted`, which leaves out the templates of the conditions of its
laws, and its laws assign only targets that are there. -/
structure Fits (u : Universe) (s : Schema α) : Prop where
  accepted : s.Accepted u
  targets : ∀ g ∈ s.groups, ∀ target ∈ g.law.assigned, target < g.targets.length

/-- The templates of the conditions of the laws of a schema pass `checkTemplate`. -/
def ConditionsFit (u : Universe) (s : Schema α) : Prop :=
  ∀ g ∈ s.groups, ∀ τ ∈ g.law.templates, s.checkTemplate u τ = .ok ()

/-- A template of a schema is one that is grounded or one of a condition of a law. -/
theorem mem_templates {τ : Template} :
    τ ∈ s.templates ↔ τ ∈ s.grounded ∨ ∃ g ∈ s.groups, τ ∈ g.law.templates := by
  simp only [templates, grounded, List.mem_append, List.mem_flatMap]
  constructor
  · rintro (h | ⟨g, hg, hτ | hτ⟩)
    · exact Or.inl (Or.inl h)
    · exact Or.inl (Or.inr ⟨g, hg, hτ⟩)
    · exact Or.inr ⟨g, hg, hτ⟩
  · rintro ((h | ⟨g, hg, hτ⟩) | ⟨g, hg, hτ⟩)
    · exact Or.inl h
    · exact Or.inr ⟨g, hg, Or.inl hτ⟩
    · exact Or.inr ⟨g, hg, Or.inr hτ⟩

/-- The check of targets of all groups of a schema. -/
theorem forM_checkTargets_eq_ok_iff :
    (s.groups.zipIdx.forM fun (g, i) => checkTargets s.name i g.targets.length g.law) = .ok () ↔
      ∀ g ∈ s.groups, ∀ target ∈ g.law.assigned, target < g.targets.length := by
  simp only [forM_eq_ok_iff, checkTargets_eq_ok_iff, Prod.forall, List.mem_zipIdx_iff_getElem?]
  exact ⟨fun h g hg => (List.mem_iff_getElem?.mp hg).elim fun i hi => h g i hi,
    fun h g i hi => h g (List.mem_of_getElem? hi)⟩

/-- **The check of a schema**: `validate` passes when the schema `Fits` and the conditions of its
laws do. -/
theorem validate_eq_ok_iff : s.validate u = .ok () ↔ s.Fits u ∧ s.ConditionsFit u := by
  rw [validate, bind_eq_ok_iff]
  constructor
  · rintro ⟨⟨⟩, htemplates, htargets⟩
    have hfit := forM_eq_ok_iff.mp htemplates
    exact ⟨⟨fun τ hτ => hfit τ (mem_templates.mpr (Or.inl hτ)),
      forM_checkTargets_eq_ok_iff.mp htargets⟩,
      fun g hg τ hτ => hfit τ (mem_templates.mpr (Or.inr ⟨g, hg, hτ⟩))⟩
  · rintro ⟨hfits, hconditions⟩
    refine ⟨(), forM_eq_ok_iff.mpr fun τ hτ => ?_, forM_checkTargets_eq_ok_iff.mpr hfits.targets⟩
    rcases mem_templates.mp hτ with hτ | ⟨g, hg, hτ⟩
    · exact hfits.accepted τ hτ
    · exact hconditions g hg τ hτ

/-- **A schema that `Fits` is refused only for a condition of a law.** -/
theorem Fits.validate_eq_error (hfits : s.Fits u) {e : ModelError} (h : s.validate u = .error e) :
    ∃ g ∈ s.groups, ∃ τ ∈ g.law.templates, s.checkTemplate u τ = .error e := by
  rcases bind_eq_error_iff.mp h with h | ⟨-, -, h⟩
  · obtain ⟨before, τ, after, hall, -, hτ⟩ := forM_eq_error_iff.mp h
    have hmem : τ ∈ s.templates := hall ▸ by simp
    rcases mem_templates.mp hmem with hgrounded | ⟨g, hg, hcondition⟩
    · exact absurd (hτ.symm.trans (hfits.accepted τ hgrounded)) (by simp)
    · exact ⟨g, hg, τ, hcondition, hτ⟩
  · exact absurd (h.symm.trans (forM_checkTargets_eq_ok_iff.mpr hfits.targets)) (by simp)

/-- `checkTemplate` does not look at laws. -/
theorem checkTemplate_withLaw (s : Schema α) (group : ℕ) (law : Law α) (τ : Template) :
    (s.withLaw group law).checkTemplate u τ = s.checkTemplate u τ := by
  have hterms : ∀ fluent types terms, (s.withLaw group law).checkTerms u fluent types terms =
      s.checkTerms u fluent types terms := Domain.checkTerms_congr rfl rfl
  simp only [checkTemplate, hterms]
  rfl

/-- A schema that `Fits` still does with another law when this one assigns only targets that are
there. -/
theorem Fits.withLaw_iff (hfits : s.Fits u) : (s.withLaw group law).Fits u ↔
    ∀ g, s.groups[group]? = some g → ∀ target ∈ law.assigned, target < g.targets.length := by
  have haccepted : (s.withLaw group law).Accepted u :=
    Domain.accepted_congr (s := s) rfl rfl (Domain.grounded_modify_law s group law) hfits.accepted
  exact ⟨fun h => (forall_mem_modify_iff_of_forall hfits.targets).mp h.targets,
    fun h => ⟨haccepted, (forall_mem_modify_iff_of_forall hfits.targets).mpr h⟩⟩

/-- When the conditions of a schema fit, they still do with another law when those of this law fit.
-/
theorem ConditionsFit.withLaw_iff (hconditions : s.ConditionsFit u) :
    (s.withLaw group law).ConditionsFit u ↔
      ∀ g, s.groups[group]? = some g → ∀ τ ∈ law.templates, s.checkTemplate u τ = .ok () := by
  simp only [ConditionsFit, checkTemplate_withLaw]
  exact forall_mem_modify_iff_of_forall hconditions

end Schema

/-! ### Domains -/

namespace Domain

variable {d d' : Domain α} {name : String} {id : SchemaId} {s : Schema α} {group : ℕ}
  {g : EffectSchema α} {law : Law α}

/-- A domain **fits** when it passes all checks but the one of the conditions of laws. -/
structure Fits (d : Domain α) : Prop where
  initial : ∀ x ∈ d.initial, d.declarations.WellTyped x.1
  goals : ∀ x ∈ d.goals, d.declarations.WellTyped x.1
  schemas : ∀ s ∈ d.schemas, s.Fits d.declarations
  grounding : ∀ map, d.grounding = some map → ∀ x ∈ map.entries, x.1.index < d.schemas.length

/-- The conditions of all laws fit. -/
def ConditionsFit (d : Domain α) : Prop := ∀ s ∈ d.schemas, s.ConditionsFit d.declarations

/-- `checkGrounding` passes when the grounding map speaks of declared schemas only. -/
theorem checkGrounding_eq_ok_iff : d.checkGrounding = .ok () ↔
    ∀ map, d.grounding = some map → ∀ x ∈ map.entries, x.1.index < d.schemas.length := by
  rw [checkGrounding]
  cases d.grounding with
  | none => simp
  | some map =>
      rw [Option.bind_some]
      simp only [Option.some.injEq, forall_eq']
      split
      · next id tuples hfind =>
        obtain ⟨hbound, -⟩ := List.find?_eq_some_iff_append.mp hfind
        simp only [reduceCtorEq, false_iff, not_forall]
        exact ⟨_, List.mem_of_find?_eq_some hfind, Nat.not_lt.mpr (of_decide_eq_true hbound)⟩
      · next hfind =>
        simpa [List.find?_eq_none] using hfind

/-- The check of the initial values and the goals passes when they are well-typed. -/
theorem forM_checkSignature_eq_ok_iff :
    ((d.initial ++ d.goals).forM fun (f, _) => d.declarations.checkSignature f) = .ok () ↔
      (∀ x ∈ d.initial, d.declarations.WellTyped x.1) ∧
        ∀ x ∈ d.goals, d.declarations.WellTyped x.1 := by
  rw [forM_eq_ok_iff, List.forall_mem_append]
  simp only [Universe.checkSignature_eq_ok_iff]

/-- **The check of a domain**: `validate` passes when the domain `Fits` and the conditions of its
laws do. -/
theorem validate_eq_ok_iff : d.validate = .ok () ↔ d.Fits ∧ d.ConditionsFit := by
  simp only [validate, bind_eq_ok_iff]
  constructor
  · rintro ⟨⟨⟩, hvalues, ⟨⟩, hschemas, hgrounding⟩
    obtain ⟨hinitial, hgoals⟩ := forM_checkSignature_eq_ok_iff.mp hvalues
    have hvalid := fun s hs => Schema.validate_eq_ok_iff.mp (forM_eq_ok_iff.mp hschemas s hs)
    exact ⟨⟨hinitial, hgoals, fun s hs => (hvalid s hs).1, checkGrounding_eq_ok_iff.mp hgrounding⟩,
      fun s hs => (hvalid s hs).2⟩
  · rintro ⟨hfits, hconditions⟩
    exact ⟨(), forM_checkSignature_eq_ok_iff.mpr ⟨hfits.initial, hfits.goals⟩, (),
      forM_eq_ok_iff.mpr fun s hs =>
        Schema.validate_eq_ok_iff.mpr ⟨hfits.schemas s hs, hconditions s hs⟩,
      checkGrounding_eq_ok_iff.mpr hfits.grounding⟩

/-- `build` gives back a domain that passes `validate`. -/
theorem build_eq_ok_iff : d.build = .ok d' ↔ d.validate = .ok () ∧ d' = d := by
  rw [build, bind_eq_ok_iff]
  constructor
  · rintro ⟨⟨⟩, hvalid, h⟩
    exact ⟨hvalid, (Except.ok.inj h).symm⟩
  · rintro ⟨hvalid, rfl⟩
    exact ⟨(), hvalid, rfl⟩

/-- **A domain that `Fits` is refused only for a condition of a law.** -/
theorem Fits.build_eq_error (hfits : d.Fits) {e : ModelError} (h : d.build = .error e) :
    ∃ s ∈ d.schemas, ∃ g ∈ s.groups, ∃ τ ∈ g.law.templates,
      s.checkTemplate d.declarations τ = .error e := by
  simp only [build, validate, bind_eq_error_iff] at h
  rcases h with (h | ⟨-, -, h | ⟨-, -, h⟩⟩) | ⟨-, -, h⟩
  · have hvalues := forM_checkSignature_eq_ok_iff.mpr ⟨hfits.initial, hfits.goals⟩
    exact absurd (h.symm.trans hvalues) (by simp)
  · obtain ⟨before, s, after, hall, -, hs⟩ := forM_eq_error_iff.mp h
    have hmem : s ∈ d.schemas := hall ▸ by simp
    exact ⟨s, hmem, (hfits.schemas s hmem).validate_eq_error hs⟩
  · exact absurd (h.symm.trans (checkGrounding_eq_ok_iff.mpr hfits.grounding)) (by simp)
  · exact absurd h (by simp [pure, Except.pure])

/-! ### Replacing a law -/

/-- The same domain, authored with another law for one group of one schema. -/
def authoredWith (d : Domain α) (id : SchemaId) (group : ℕ) (law : Law α) : Domain α :=
  { d with schemas := d.schemas.modify id.index fun s => s.withLaw group law }

/-- **Which laws can be put in the place of another one**: `withLaw` accepts those that assign only
targets of the group. The result is the domain authored with that law, whose conditions are not
looked at. -/
theorem withLaw_eq_ok_iff : d.withLaw name group law = .ok d' ↔
    ∃ id s g, d.schemaId name = .ok id ∧ d.schema? id = some s ∧ s.groups[group]? = some g ∧
      (∀ target ∈ law.assigned, target < g.targets.length) ∧ d' = d.authoredWith id group law := by
  rw [Domain.withLaw, bind_eq_ok_iff]
  constructor
  · rintro ⟨id, hid, h⟩
    cases hgroup : (d.schema? id).bind (·.groups[group]?) with
    | none =>
        rw [hgroup] at h
        exact absurd h (by simp)
    | some g =>
        rw [hgroup] at h
        obtain ⟨⟨⟩, htargets, h⟩ := bind_eq_ok_iff.mp h
        obtain ⟨s, hs, hg⟩ := Option.bind_eq_some_iff.mp hgroup
        exact ⟨id, s, g, hid, hs, hg, checkTargets_eq_ok_iff.mp htargets, (Except.ok.inj h).symm⟩
  · rintro ⟨id, s, g, hid, hs, hg, htargets, rfl⟩
    refine ⟨id, hid, ?_⟩
    simp only [hs, Option.bind_some, hg, checkTargets_eq_ok_iff.mpr htargets]
    rfl

/-- A domain that fits still does with another law when this one assigns only targets that are
there. -/
theorem Fits.authoredWith_iff (hfits : d.Fits) (hs : d.schema? id = some s)
    (hg : s.groups[group]? = some g) : (d.authoredWith id group law).Fits ↔
      ∀ target ∈ law.assigned, target < g.targets.length := by
  have hs' : d.schemas[id.index]? = some s := hs
  have hschema : (s.withLaw group law).Fits d.declarations ↔
      ∀ target ∈ law.assigned, target < g.targets.length := by
    simp [(hfits.schemas s (List.mem_of_getElem? hs)).withLaw_iff, hg]
  have hschemas : (∀ s ∈ (d.authoredWith id group law).schemas, s.Fits d.declarations) ↔
      ∀ target ∈ law.assigned, target < g.targets.length := by
    rw [← hschema, authoredWith, forall_mem_modify_iff_of_forall hfits.schemas, hs']
    simp only [Option.some.injEq, forall_eq']
  have hgrounding : ∀ map, d.grounding = some map → ∀ x ∈ map.entries,
      x.1.index < (d.authoredWith id group law).schemas.length := by
    simpa only [authoredWith, List.length_modify] using hfits.grounding
  exact ⟨fun h => hschemas.mp h.schemas,
    fun h => ⟨hfits.initial, hfits.goals, hschemas.mpr h, hgrounding⟩⟩

/-- When the conditions of a domain fit, they still do with another law when those of this law fit.
-/
theorem ConditionsFit.authoredWith_iff (hconditions : d.ConditionsFit)
    (hs : d.schema? id = some s) (hg : s.groups[group]? = some g) :
    (d.authoredWith id group law).ConditionsFit ↔
      ∀ τ ∈ law.templates, s.checkTemplate d.declarations τ = .ok () := by
  have hs' : d.schemas[id.index]? = some s := hs
  have hschema : (s.withLaw group law).ConditionsFit d.declarations ↔
      ∀ τ ∈ law.templates, s.checkTemplate d.declarations τ = .ok () := by
    simp [(hconditions s (List.mem_of_getElem? hs)).withLaw_iff, hg]
  rw [← hschema, ConditionsFit, authoredWith, forall_mem_modify_iff_of_forall hconditions, hs']
  simp only [Option.some.injEq, forall_eq']

/-- One domain is made of another one by replacing a law. -/
def Relaws (d d' : Domain α) : Prop := ∃ name group law, d.withLaw name group law = .ok d'

/-- `Fits` is kept by replacing a law. -/
theorem Fits.relaws (hfits : d.Fits) (h : d.Relaws d') : d'.Fits := by
  obtain ⟨name, group, law, h⟩ := h
  obtain ⟨id, s, g, -, hs, hg, htargets, rfl⟩ := withLaw_eq_ok_iff.mp h
  exact (hfits.authoredWith_iff hs hg).mpr htargets

/-- **Replacing laws checks targets only.** Let laws be replaced any number of times, beginning with
an accepted domain.

* The domain at the end has passed all checks but that of the conditions of laws. It is accepted
  exactly when these conditions fit, and what is reported of it otherwise is about such a condition.
* A law can be put in the place of one of its laws exactly when all targets that it assigns are
  there, and the result is the domain authored with that law. When the conditions so far fit, that
  domain is accepted exactly when the law can be put there and its own conditions fit.
* A condition that fits stands, under every tuple that suits the schema, for a ground fluent that
  passes the check of signatures. -/
theorem relaws_check_targets {authored : Domain α} (hbuild : authored.build = .ok d)
    (hrelaws : Relation.ReflTransGen Relaws d d') :
    d'.Fits ∧ (d'.build = .ok d' ↔ d'.ConditionsFit) ∧
    (∀ e, d'.build = .error e → ∃ s ∈ d'.schemas, ∃ g ∈ s.groups, ∃ τ ∈ g.law.templates,
      s.checkTemplate d'.declarations τ = .error e) ∧
    (∀ name id s group g law, d'.schemaId name = .ok id → d'.schema? id = some s →
      s.groups[group]? = some g →
      (∀ x, d'.withLaw name group law = .ok x ↔
        (∀ target ∈ law.assigned, target < g.targets.length) ∧ x = d'.authoredWith id group law) ∧
      (d'.ConditionsFit → ((∃ x, (d'.authoredWith id group law).build = .ok x) ↔
        (∃ x, d'.withLaw name group law = .ok x) ∧
          ∀ τ ∈ law.templates, s.checkTemplate d'.declarations τ = .ok ()))) ∧
    ∀ s ∈ d'.schemas, ∀ g ∈ s.groups, ∀ τ ∈ g.law.templates,
      s.checkTemplate d'.declarations τ = .ok () → ∀ tuple, s.Suits d'.declarations tuple →
        ∃ f, τ.bind tuple = some f ∧ d'.declarations.checkSignature f = .ok () := by
  have hfits : d'.Fits := by
    induction hrelaws with
    | refl =>
        obtain ⟨hvalid, rfl⟩ := build_eq_ok_iff.mp hbuild
        exact (validate_eq_ok_iff.mp hvalid).1
    | tail _ hstep ih => exact ih.relaws hstep
  refine ⟨hfits, ?_, fun e => hfits.build_eq_error, ?_, ?_⟩
  · simp [build_eq_ok_iff, validate_eq_ok_iff, hfits]
  · intro name id s group g law hid hs hg
    have hlaw : ∀ x, d'.withLaw name group law = .ok x ↔
        (∀ target ∈ law.assigned, target < g.targets.length) ∧
          x = d'.authoredWith id group law := by
      intro x
      rw [withLaw_eq_ok_iff]
      constructor
      · rintro ⟨id', s', g', hid', hs', hg', htargets, rfl⟩
        obtain rfl := Except.ok.inj (hid.symm.trans hid')
        obtain rfl := Option.some.inj (hs.symm.trans hs')
        obtain rfl := Option.some.inj (hg.symm.trans hg')
        exact ⟨htargets, rfl⟩
      · rintro ⟨htargets, rfl⟩
        exact ⟨id, s, g, hid, hs, hg, htargets, rfl⟩
    refine ⟨hlaw, fun hconditions => ?_⟩
    simp [build_eq_ok_iff, validate_eq_ok_iff, hlaw, hfits.authoredWith_iff hs hg,
      hconditions.authoredWith_iff hs hg]
  · intro s hs g hg τ hτ hcheck tuple hsuits
    obtain ⟨f, hbind, hf⟩ := Schema.exists_bind_of_checkTemplate hsuits hcheck
    exact ⟨f, hbind, Universe.checkSignature_eq_ok_iff.mpr hf⟩

/-- Picking apples, which may go wrong; `asked` are the apples that the law asks about. -/
def picking (asked : List Term) : Schema ℚ :=
  let s : Schema ℚ := { name := "pick", duration := 1 }
  s.draw [.constant ⟨0⟩ [⟨0⟩]] (.conditional [⟨[(⟨⟨0⟩, asked⟩, false)], [.unchanged 1]⟩]
    [⟨1, [(0, true)]⟩])

/-- An orchard with one apple. -/
def orchard (schema : Schema ℚ) : Domain ℚ where
  name := "orchard"
  kind := .regular
  declarations := {
    types := #[⟨"apple"⟩]
    objects := #[⟨"red", ⟨0⟩⟩]
    fluents := #[⟨"picked", [⟨0⟩], false⟩] }
  schemas := [schema]
  goals := [(⟨⟨0⟩, [⟨0⟩]⟩, true)]

/-- In the orchard a law that asks about an apple may be replaced by one that forgets to say which
one. The orchard that results is not accepted, for that condition; authored so from the beginning it
would not have been accepted either. -/
theorem relaws_check_targets_orchard :
    ∃ d d' : Domain ℚ, (orchard (picking [.object ⟨0⟩])).build = .ok d ∧
      Relation.ReflTransGen Relaws d d' ∧ d'.Fits ∧ ¬d'.ConditionsFit ∧
      d' = orchard (picking []) ∧ d'.build = .error (.signatureMismatch "picked"
        (.templateArity "pick" 0 1)) ∧
      ∀ law : Law ℚ, (∃ x, d'.withLaw "pick" 0 law = .ok x) ↔
        ∀ target ∈ law.assigned, target < 1 := by
  have hbuild : (orchard (picking [.object ⟨0⟩])).build = .ok (orchard (picking [.object ⟨0⟩])) :=
    rfl
  have hlaw : Relaws (orchard (picking [.object ⟨0⟩])) (orchard (picking [])) :=
    ⟨"pick", 0, .conditional [⟨[(⟨⟨0⟩, []⟩, false)], [.unchanged 1]⟩] [⟨1, [(0, true)]⟩], rfl⟩
  have hrelaws : Relation.ReflTransGen Relaws _ _ := .single hlaw
  obtain ⟨hfits, hbuilt, -, hlaws, -⟩ := relaws_check_targets hbuild hrelaws
  have herror : (orchard (picking [])).build = .error (.signatureMismatch "picked"
      (.templateArity "pick" 0 1)) := rfl
  refine ⟨_, _, hbuild, hrelaws, hfits, ?_, rfl, herror, fun law => ?_⟩
  · rw [← hbuilt, herror]
    simp
  · have hput := (hlaws "pick" ⟨0⟩ _ 0 _ law rfl rfl rfl).1
    exact ⟨fun ⟨x, hx⟩ => ((hput x).mp hx).1, fun htargets => ⟨_, (hput _).mpr ⟨htargets, rfl⟩⟩⟩

end Domain

end DurativePlanning
