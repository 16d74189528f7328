import DurativePlanning.Proofs.Numbering
import DurativePlanning.Proofs.Problem.Typing
import Mathlib.Data.Rat.Init

/-!
# Which Groundings Fail

Three checks speak about types: templates are checked when a domain is accepted, listed tuples when
a schema is applied to them, and ground fluents once more when they are numbered. The last check
never refuses what has passed the first two. So grounding an accepted domain, also with another
deadline, other laws or another grounding map, fails only by a tuple that the map lists, and the
table of a ground problem holds well-typed ground fluents only.

* `Schema.Refuses`: what is wrong with a tuple, and which error says so.
* `Domain.Configured`: accepted domains, and what is made of them.
* `Domain.listed`: the tuples that the grounding map lists for declared schemas, in order.
* `Domain.groundSchemas_agrees`: grounding schemas fails as the check of the listed tuples does.
* `Domain.ground_fails_by_listed`: all of it.
-/

namespace DurativePlanning

variable {α : Type} {u : Universe} {t t' : AtomTable}

/-! ### What is wrong with a tuple -/

namespace Schema

variable {s : Schema α} {tuple : List ObjectId} {e : ModelError}

/-- **The place at which a tuple is refused**, with the error: the object there is not declared, or
it has another type than the parameter. -/
inductive RefusesAt (u : Universe) (schema : String) (params : List (String × TypeId))
    (objects : List ObjectId) (i : ℕ) : ModelError → Prop
  | undeclared {o : ObjectId} : objects[i]? = some o → u.object? o = none →
      RefusesAt u schema params objects i (.unknownObject (.numbered o.index))
  | mistyped {o : ObjectId} {parameter : String} {expected : TypeId} {decl : ObjectDecl} :
      objects[i]? = some o → params[i]? = some (parameter, expected) → u.object? o = some decl →
        decl.type ≠ expected → RefusesAt u schema params objects i
          (.typeMismatch schema parameter (u.typeName expected) decl.name (u.typeName decl.type))

/-- **How a tuple is refused**: for its length by `arityMismatch`, or at the first place that does
not fit. -/
inductive Refuses (u : Universe) (s : Schema α) (tuple : List ObjectId) : ModelError → Prop
  | arity : tuple.length ≠ s.params.length →
      Refuses u s tuple (.arityMismatch s.name s.params.length tuple.length)
  | place {i : ℕ} {e : ModelError} : tuple.length = s.params.length →
      RefusesAt u s.name s.params tuple i e →
        (∀ j < i, ∀ e', ¬RefusesAt u s.name s.params tuple j e') → Refuses u s tuple e

/-- A tuple is **faulty** for a schema when its length differs from the number of parameters, when
it holds an object that is not declared, or when it holds an object of another type than the
declared type of its parameter. -/
def Faulty (u : Universe) (s : Schema α) (tuple : List ObjectId) : Prop :=
  tuple.length ≠ s.params.length ∨ (∃ o ∈ tuple, u.object? o = none) ∨
    ∃ (i : ℕ) (o : ObjectId) (p : String × TypeId) (decl : ObjectDecl), tuple[i]? = some o ∧
      s.params[i]? = some p ∧ u.object? o = some decl ∧ decl.type ≠ p.2

/-- A later place is refused as it is in the rest of the tuple. -/
theorem refusesAt_cons_succ {schema : String} {param : String × TypeId}
    {params : List (String × TypeId)} {o : ObjectId} {objects : List ObjectId} {i : ℕ} :
    RefusesAt u schema (param :: params) (o :: objects) (i + 1) e ↔
      RefusesAt u schema params objects i e := by
  constructor
  · rintro (⟨ho, hnone⟩ | ⟨ho, hparam, hdecl, htype⟩)
    · exact .undeclared (by simpa using ho) hnone
    · exact .mistyped (by simpa using ho) (by simpa using hparam) hdecl htype
  · rintro (⟨ho, hnone⟩ | ⟨ho, hparam, hdecl, htype⟩)
    · exact .undeclared (by simpa using ho) hnone
    · exact .mistyped (by simpa using ho) (by simpa using hparam) hdecl htype

/-- The first place of a tuple is refused when its object is not declared with the expected type. -/
theorem refusesAt_cons_zero {schema : String} {parameter : String} {expected : TypeId}
    {params : List (String × TypeId)} {o : ObjectId} {objects : List ObjectId} :
    RefusesAt u schema ((parameter, expected) :: params) (o :: objects) 0 e ↔
      (u.object? o = none ∧ e = .unknownObject (.numbered o.index)) ∨
        ∃ decl, u.object? o = some decl ∧ decl.type ≠ expected ∧ e = .typeMismatch schema parameter
          (u.typeName expected) decl.name (u.typeName decl.type) := by
  constructor
  · rintro (⟨ho, hnone⟩ | ⟨ho, hparam, hdecl, htype⟩)
    · obtain rfl := Option.some.inj ho
      exact Or.inl ⟨hnone, rfl⟩
    · obtain rfl := Option.some.inj ho
      obtain ⟨rfl, rfl⟩ := Prod.mk.inj (Option.some.inj hparam)
      exact Or.inr ⟨_, hdecl, htype, rfl⟩
  · rintro (⟨hnone, rfl⟩ | ⟨decl, hdecl, htype, rfl⟩)
    · exact .undeclared rfl hnone
    · exact .mistyped rfl rfl hdecl htype

/-- The first place that is refused is the first one of the tuple, or else the first place that is
refused in the rest of the tuple. -/
theorem exists_first_cons {schema : String} {param : String × TypeId}
    {params : List (String × TypeId)} {o : ObjectId} {objects : List ObjectId} :
    (∃ i, RefusesAt u schema (param :: params) (o :: objects) i e ∧
      ∀ j < i, ∀ e', ¬RefusesAt u schema (param :: params) (o :: objects) j e') ↔
    RefusesAt u schema (param :: params) (o :: objects) 0 e ∨
      (∀ e', ¬RefusesAt u schema (param :: params) (o :: objects) 0 e') ∧
        ∃ i, RefusesAt u schema params objects i e ∧
          ∀ j < i, ∀ e', ¬RefusesAt u schema params objects j e' := by
  constructor
  · rintro ⟨_ | i, hi, hbefore⟩
    · exact Or.inl hi
    · exact Or.inr ⟨hbefore 0 (Nat.succ_pos i), i, refusesAt_cons_succ.mp hi, fun j hj e' he' =>
        hbefore (j + 1) (Nat.succ_lt_succ hj) e' (refusesAt_cons_succ.mpr he')⟩
  · rintro (hhere | ⟨hfits, i, hi, hbefore⟩)
    · exact ⟨0, hhere, fun j hj => absurd hj (Nat.not_lt_zero j)⟩
    · refine ⟨i + 1, refusesAt_cons_succ.mpr hi, ?_⟩
      rintro (_ | j) hj e' he'
      · exact hfits e' he'
      · exact hbefore j (Nat.lt_of_succ_lt_succ hj) e' (refusesAt_cons_succ.mp he')

/-- **The check of parameters**: `checkObjects` reports the first place that is refused. -/
theorem checkObjects_eq_error_iff {params : List (String × TypeId)} {objects : List ObjectId}
    (hlength : objects.length = params.length) :
    s.checkObjects u params objects = .error e ↔
      ∃ i, RefusesAt u s.name params objects i e ∧
        ∀ j < i, ∀ e', ¬RefusesAt u s.name params objects j e' := by
  induction params generalizing objects with
  | nil =>
      obtain rfl := List.length_eq_zero_iff.mp hlength
      simp only [checkObjects, reduceCtorEq, false_iff, not_exists, not_and]
      rintro i (⟨ho, -⟩ | ⟨ho, -⟩) <;> simp at ho
  | cons param params ih =>
      obtain ⟨object, objects, rfl⟩ := List.exists_cons_of_length_eq_add_one hlength
      obtain ⟨parameter, expected⟩ := param
      rw [exists_first_cons, ← ih (Nat.succ.inj hlength), checkObjects]
      simp only [refusesAt_cons_zero]
      cases hobject : u.object? object with
      | none => simp [eq_comm (a := e)]
      | some decl =>
          by_cases htype : decl.type = expected
          · simp [htype]
          · simp [htype, eq_comm (a := e)]

/-- **The check of a tuple**: the errors of `checkTuple` are those by which the tuple is refused. -/
theorem checkTuple_eq_error_iff : s.checkTuple u tuple = .error e ↔ s.Refuses u tuple e := by
  rw [checkTuple]
  by_cases hlength : tuple.length = s.params.length
  · rw [if_pos hlength, checkObjects_eq_error_iff hlength]
    constructor
    · rintro ⟨i, hi, hbefore⟩
      exact .place hlength hi hbefore
    · rintro (hne | ⟨-, hi, hbefore⟩)
      · exact absurd hlength hne
      · exact ⟨_, hi, hbefore⟩
  · rw [if_neg hlength, Except.error.injEq]
    constructor
    · rintro rfl
      exact .arity hlength
    · rintro (- | ⟨h, -, -⟩)
      · rfl
      · exact absurd h hlength

/-- The tuples that `Suits` accepts are those that are not `Faulty`. -/
theorem suits_iff_not_faulty : s.Suits u tuple ↔ ¬s.Faulty u tuple := by
  constructor
  · rintro hsuits (hlength | ⟨o, ho, hnone⟩ | ⟨i, o, p, decl, ho, hp, hdecl, htype⟩)
    · exact hlength (by simpa using congrArg List.length hsuits)
    · have hmem : u.typeOf? o ∈ (s.params.map Prod.snd).map some :=
        hsuits ▸ List.mem_map_of_mem ho
      simp [Universe.typeOf?, hnone] at hmem
    · have hplace := congrArg (fun types => types[i]?) hsuits
      simp only [List.getElem?_map, ho, hp, Option.map_some, Universe.typeOf?, hdecl,
        Option.some.injEq] at hplace
      exact htype hplace
  · intro hfit
    simp only [Faulty, not_or, ne_eq, not_not] at hfit
    obtain ⟨hlength, hdeclared, htypes⟩ := hfit
    refine List.ext_getElem? fun i => ?_
    simp only [List.getElem?_map]
    cases ho : tuple[i]? with
    | none =>
        have hp : s.params[i]? = none :=
          List.getElem?_eq_none (hlength ▸ List.getElem?_eq_none_iff.mp ho)
        simp [hp]
    | some o =>
        have hi : i < s.params.length := hlength ▸ (List.getElem?_eq_some_iff.mp ho).1
        cases hdecl : u.object? o with
        | none => exact absurd ⟨o, List.mem_of_getElem? ho, hdecl⟩ hdeclared
        | some decl =>
            have hp := List.getElem?_eq_getElem hi
            have htype : decl.type = s.params[i].2 := by
              by_contra hne
              exact htypes ⟨i, o, _, decl, ho, hp, hdecl, hne⟩
            simp [hp, Universe.typeOf?, hdecl, htype]

end Schema

/-! ### Numbering what is well-typed -/

/-- A table is **well-typed** when all its ground fluents are. -/
def AtomTable.WellTyped (u : Universe) (t : AtomTable) : Prop := ∀ f ∈ t.toList, u.WellTyped f

/-- The templates that become ground fluents when a schema is applied: all but those that only
conditions of laws mention. -/
def Schema.grounded (s : Schema α) : List Template :=
  s.conditions.map (·.fluent) ++ s.effects.map (·.fluent) ++ s.resources ++
    s.groups.flatMap (·.targets)

/-- A schema is **accepted** when all these templates fit their fluents. -/
def Schema.Accepted (u : Universe) (s : Schema α) : Prop :=
  ∀ τ ∈ s.grounded, s.checkTemplate u τ = .ok ()

namespace AtomTable

/-- `internChecked` succeeds on a well-typed ground fluent. -/
theorem exists_internChecked (ht : t.WellTyped u) {f : GroundFluent} (hf : u.WellTyped f) :
    ∃ a t', t.internChecked u f = .ok (a, t') ∧ t'.WellTyped u := by
  refine ⟨(t.internAtom f).1, (t.internAtom f).2, ?_, fun g hg => ?_⟩
  · rw [internChecked, Universe.checkSignature_eq_ok_iff.mpr hf]
    rfl
  · rw [internAtom, Numbering.toList_intern] at hg
    split at hg
    · exact ht g hg
    · rcases List.mem_append.mp hg with hg | hg
      · exact ht g hg
      · exact List.mem_singleton.mp hg ▸ hf

/-- `internLiterals` succeeds on well-typed ground fluents with values. -/
theorem exists_internLiterals (ht : t.WellTyped u) {fluents : List (GroundFluent × Bool)}
    (hfluents : ∀ x ∈ fluents, u.WellTyped x.1) :
    ∃ literals t', internLiterals u t fluents = .ok (literals, t') ∧ t'.WellTyped u := by
  induction fluents generalizing t with
  | nil => exact ⟨[], t, rfl, ht⟩
  | cons x rest ih =>
      rw [List.forall_mem_cons] at hfluents
      obtain ⟨a, t₁, hfirst, ht₁⟩ := exists_internChecked ht hfluents.1
      obtain ⟨literals, t₂, hrest, ht₂⟩ := ih ht₁ hfluents.2
      refine ⟨⟨a, x.2⟩ :: literals, t₂, ?_, ht₂⟩
      simp only [internLiterals, hfirst, hrest, bind, Except.bind]
      rfl

variable {bindings : List ObjectId}

/-- `internTemplates` succeeds on templates that stand for well-typed ground fluents. -/
theorem exists_internTemplates (schema : String) (ht : t.WellTyped u) {templates : List Template}
    (htemplates : ∀ τ ∈ templates, ∃ f, τ.bind bindings = some f ∧ u.WellTyped f) :
    ∃ atoms t', internTemplates u schema bindings t templates = .ok (atoms, t') ∧
      t'.WellTyped u := by
  induction templates generalizing t with
  | nil => exact ⟨[], t, rfl, ht⟩
  | cons τ rest ih =>
      rw [List.forall_mem_cons] at htemplates
      obtain ⟨⟨f, hbind, hf⟩, hrest⟩ := htemplates
      obtain ⟨a, t₁, hfirst, ht₁⟩ := exists_internChecked ht hf
      obtain ⟨atoms, t₂, hothers, ht₂⟩ := ih ht₁ hrest
      refine ⟨a :: atoms, t₂, ?_, ht₂⟩
      simp only [internTemplates, internTemplate, hbind, hfirst, hothers, bind, Except.bind]
      rfl

/-- `internGroups` succeeds when the targets of the groups stand for well-typed ground fluents. -/
theorem exists_internGroups (schema : String) (ht : t.WellTyped u) {groups : List (EffectSchema α)}
    (hgroups : ∀ g ∈ groups, ∀ τ ∈ g.targets, ∃ f, τ.bind bindings = some f ∧ u.WellTyped f) :
    ∃ ground t', internGroups u schema bindings t groups = .ok (ground, t') ∧
      t'.WellTyped u := by
  induction groups generalizing t with
  | nil => exact ⟨[], t, rfl, ht⟩
  | cons g rest ih =>
      rw [List.forall_mem_cons] at hgroups
      obtain ⟨targets, t₁, hfirst, ht₁⟩ :=
        exists_internTemplates schema ht hgroups.1
      obtain ⟨ground, t₂, hothers, ht₂⟩ := ih ht₁ hgroups.2
      refine ⟨⟨targets, g.law, bindings⟩ :: ground, t₂, ?_, ht₂⟩
      simp only [internGroups, hfirst, hothers, bind, Except.bind]
      rfl

end AtomTable

namespace Schema

variable {s : Schema α}

/-- **An accepted schema can be applied** to a tuple that suits it: `instantiate` succeeds, and the
table stays well-typed. -/
theorem exists_instantiate (id : SchemaId) (ht : t.WellTyped u) (hs : s.Accepted u)
    {tuple : List ObjectId} (hsuits : s.Suits u tuple) :
    ∃ a t', s.instantiate u id t tuple = .ok (a, t') ∧ t'.WellTyped u := by
  have hbind : ∀ τ ∈ s.grounded, ∃ f, τ.bind tuple = some f ∧ u.WellTyped f :=
    fun τ hτ => exists_bind_of_checkTemplate hsuits (hs τ hτ)
  simp only [grounded, List.forall_mem_append, List.mem_flatMap] at hbind
  obtain ⟨⟨⟨hconditions, heffects⟩, hresources⟩, htargets⟩ := hbind
  obtain ⟨conditions, t₁, h₁, ht₁⟩ :=
    AtomTable.exists_internTemplates s.name ht hconditions
  obtain ⟨effects, t₂, h₂, ht₂⟩ :=
    AtomTable.exists_internTemplates s.name ht₁ heffects
  obtain ⟨resources, t₃, h₃, ht₃⟩ :=
    AtomTable.exists_internTemplates s.name ht₂ hresources
  obtain ⟨groups, t₄, h₄, ht₄⟩ :=
    AtomTable.exists_internGroups s.name ht₃ fun g hg τ hτ => htargets τ ⟨g, hg, hτ⟩
  have h : ∃ a, s.instantiate u id t tuple = .ok (a, t₄) := by
    simp only [instantiate, h₁, h₂, h₃, h₄, bind, Except.bind]
    exact ⟨_, rfl⟩
  obtain ⟨a, h⟩ := h
  exact ⟨a, t₄, h, ht₄⟩

/-- `instantiateAll` of an accepted schema succeeds on tuples that suit it. -/
theorem exists_instantiateAll (id : SchemaId) (ht : t.WellTyped u) (hs : s.Accepted u)
    {tuples : List (List ObjectId)} (hsuits : ∀ tuple ∈ tuples, s.Suits u tuple) :
    ∃ actions t', s.instantiateAll u id t tuples = .ok (actions, t') ∧ t'.WellTyped u := by
  induction tuples generalizing t with
  | nil => exact ⟨[], t, rfl, ht⟩
  | cons tuple rest ih =>
      rw [List.forall_mem_cons] at hsuits
      obtain ⟨a, t₁, hfirst, ht₁⟩ := exists_instantiate id ht hs hsuits.1
      obtain ⟨actions, t₂, hrest, ht₂⟩ := ih ht₁ hsuits.2
      refine ⟨a :: actions, t₂, ?_, ht₂⟩
      simp only [instantiateAll, hfirst, hrest, bind, Except.bind]
      rfl

end Schema

/-! ### Accepted domains, and what is made of them -/

namespace Domain

variable {d d' : Domain α}

/-- **The domains in question**: one that `build` accepted, and any domain made of it by giving it
another deadline, replacing laws, and restricting its schemas to other tuples. -/
inductive Configured : Domain α → Prop
  | built {authored d : Domain α} : authored.build = .ok d → Configured d
  | withDeadline {d : Domain α} (deadline : ℕ) : Configured d → Configured (d.withDeadline deadline)
  | withLaw {d d' : Domain α} {schema : String} {group : ℕ} {law : Law α} :
      Configured d → d.withLaw schema group law = .ok d' → Configured d'
  | withGrounding {d : Domain α} (map : GroundingMap) :
      Configured d → Configured (d.withGrounding map)

/-- What such a domain still has passed: its initial values and goals are well-typed, and its
schemas are accepted. -/
structure Sound (d : Domain α) : Prop where
  initial : ∀ x ∈ d.initial, d.declarations.WellTyped x.1
  goals : ∀ x ∈ d.goals, d.declarations.WellTyped x.1
  schemas : ∀ s ∈ d.schemas, s.Accepted d.declarations

/-- Replacing a law leaves the targets of the groups, and with them `grounded`. -/
theorem grounded_modify_law (s : Schema α) (group : ℕ) (law : Law α) :
    Schema.grounded { s with groups := s.groups.modify group fun g => { g with law } } =
      s.grounded := by
  have htargets : (s.groups.modify group fun g => { g with law }).map (·.targets) =
      s.groups.map (·.targets) := by
    refine List.ext_getElem? fun i => ?_
    simp only [List.getElem?_map, List.getElem?_modify]
    cases s.groups[i]? with
    | none => rfl
    | some g => split <;> rfl
  simp only [Schema.grounded, List.flatMap_def, htargets]

/-- `checkTerms` looks at the name and the parameters of a schema only. -/
theorem checkTerms_congr {s s' : Schema α} (hname : s'.name = s.name)
    (hparams : s'.params = s.params) (fluent : String) (types : List TypeId) (terms : List Term) :
    s'.checkTerms u fluent types terms = s.checkTerms u fluent types terms := by
  induction types generalizing terms with
  | nil => rfl
  | cons expected types ih =>
      cases terms with
      | nil => rfl
      | cons term terms =>
          have hterm : s'.termType u term = s.termType u term := by
            cases term with
            | param index => simp only [Schema.termType, hparams, hname]
            | object id => rfl
          simp only [Schema.checkTerms, hterm, hname, ih]

/-- `Accepted` looks at the name, the parameters and the grounded templates of a schema only. -/
theorem accepted_congr {s s' : Schema α} (hname : s'.name = s.name) (hparams : s'.params = s.params)
    (hgrounded : s'.grounded = s.grounded) (hs : s.Accepted u) : s'.Accepted u := by
  intro τ hτ
  rw [← hs τ (hgrounded ▸ hτ)]
  simp only [Schema.checkTemplate, checkTerms_congr hname hparams, hname]

/-- `withLaw` keeps a domain `Sound`: it has the schemas of the old one, up to that law. -/
theorem Sound.withLaw (hd : d.Sound) {schema : String} {group : ℕ} {law : Law α}
    (h : d.withLaw schema group law = .ok d') : d'.Sound := by
  simp only [Domain.withLaw, bind_eq_ok_iff] at h
  obtain ⟨id, -, h⟩ := h
  split at h
  · exact absurd h (by simp)
  · obtain ⟨⟨⟩, -, h⟩ := bind_eq_ok_iff.mp h
    obtain rfl := Except.ok.inj h
    refine ⟨hd.initial, hd.goals, fun s hs => ?_⟩
    obtain ⟨i, hi⟩ := List.mem_iff_getElem?.mp hs
    rw [List.getElem?_modify] at hi
    obtain ⟨s₀, hs₀, rfl⟩ := Option.map_eq_some_iff.mp hi
    have haccepted := hd.schemas s₀ (List.mem_of_getElem? hs₀)
    split
    · exact accepted_congr (s := s₀) rfl rfl (grounded_modify_law s₀ group law) haccepted
    · exact haccepted

/-- **What is made of an accepted domain** is `Sound`, by induction on `Configured`. -/
theorem Configured.sound (h : d.Configured) : d.Sound := by
  induction h with
  | built h =>
      obtain ⟨hinitial, hgoals, htemplates⟩ := of_build_eq_ok h
      refine ⟨hinitial, hgoals, fun s hs τ hτ => htemplates s hs τ ?_⟩
      simp only [Schema.grounded, Schema.templates, List.mem_append, List.mem_flatMap] at hτ ⊢
      refine hτ.imp_right ?_
      rintro ⟨g, hg, hτ⟩
      exact ⟨g, hg, Or.inl hτ⟩
  | withDeadline deadline _ ih => exact ⟨ih.initial, ih.goals, ih.schemas⟩
  | withLaw _ h ih => exact ih.withLaw h
  | withGrounding map _ ih => exact ⟨ih.initial, ih.goals, ih.schemas⟩

/-! ### The first tuple that is refused -/

/-- The tuples that are listed for some schemas, the first of which has a given number: schema by
schema, each with its tuples in order. -/
def listedFrom (d : Domain α) (next : ℕ) (schemas : List (Schema α)) :
    List (Schema α × List ObjectId) :=
  (schemas.zipIdx next).flatMap fun x => ((d.tuples? ⟨x.2⟩).getD []).map fun tuple => (x.1, tuple)

/-- **The listed tuples** of a domain, each with the schema that it is listed for. Tuples that are
listed for a schema which is not declared do not count. -/
def listed (d : Domain α) : List (Schema α × List ObjectId) := d.listedFrom 0 d.schemas

/-- The check of all listed tuples, in order. -/
def checkListed (d : Domain α) (listed : List (Schema α × List ObjectId)) :
    Except ModelError Unit :=
  listed.forM fun x => x.1.checkTuple d.declarations x.2

/-- The listed tuples of the first schema are checked first. -/
theorem checkListed_cons (d : Domain α) (next : ℕ) (s : Schema α) (rest : List (Schema α)) :
    d.checkListed (d.listedFrom next (s :: rest)) =
      (((d.tuples? ⟨next⟩).getD []).forM (s.checkTuple d.declarations) >>= fun _ =>
        d.checkListed (d.listedFrom (next + 1) rest)) := by
  rw [checkListed, listedFrom, List.zipIdx_cons, List.flatMap_cons, List.forM_eq_forM,
    List.forM_append, List.forM_map]
  rfl

/-- **Grounding schemas agrees with the check of their listed tuples**: `groundSchemas` and
`checkListed` both fail with the same error, or neither does, and then the table stays
well-typed. -/
theorem groundSchemas_agrees {schemas : List (Schema α)}
    (hschemas : ∀ s ∈ schemas, s.Accepted d.declarations) (next : ℕ)
    (ht : t.WellTyped d.declarations) :
    (d.checkListed (d.listedFrom next schemas) = .ok () ∧
      ∃ actions t', d.groundSchemas next t schemas = .ok (actions, t') ∧
        t'.WellTyped d.declarations) ∨
    ∃ e, d.checkListed (d.listedFrom next schemas) = .error e ∧
      d.groundSchemas next t schemas = .error e := by
  induction schemas generalizing next t with
  | nil => exact Or.inl ⟨rfl, [], t, rfl, ht⟩
  | cons s rest ih =>
      rw [List.forall_mem_cons] at hschemas
      -- the tuples of the first schema are checked before it is applied to any of them
      have htuples : (((d.tuples? ⟨next⟩).getD []).forM (s.checkTuple d.declarations) = .ok () ∧
          ∃ tuples, d.tuplesFor ⟨next⟩ s = .ok tuples) ∨
          ∃ e, ((d.tuples? ⟨next⟩).getD []).forM (s.checkTuple d.declarations) = .error e ∧
            d.tuplesFor ⟨next⟩ s = .error e := by
        rw [tuplesFor]
        cases d.tuples? ⟨next⟩ with
        | none => exact Or.inl ⟨rfl, _, rfl⟩
        | some tuples =>
            rw [Option.getD_some]
            cases hchecked : tuples.forM (s.checkTuple d.declarations) with
            | ok _ => exact Or.inl ⟨rfl, tuples, by simp only [hchecked]; rfl⟩
            | error e => exact Or.inr ⟨e, rfl, by simp only [hchecked]; rfl⟩
      rw [checkListed_cons]
      rcases htuples with ⟨hchecked, tuples, htuples⟩ | ⟨e, hchecked, htuples⟩
      · obtain ⟨actions, t₁, hactions, ht₁⟩ := Schema.exists_instantiateAll ⟨next⟩ ht
          hschemas.1 (suits_of_tuplesFor htuples)
        rw [hchecked]
        rcases ih hschemas.2 (next + 1) ht₁ with
          ⟨hrest, others, t₂, hothers, ht₂⟩ | ⟨e, hrest, hothers⟩
        · refine Or.inl ⟨hrest, actions ++ others, t₂, ?_, ht₂⟩
          simp only [groundSchemas, htuples, hactions, hothers, bind, Except.bind]
          rfl
        · refine Or.inr ⟨e, hrest, ?_⟩
          simp only [groundSchemas, htuples, hactions, hothers, bind, Except.bind]
      · refine Or.inr ⟨e, by rw [hchecked]; rfl, ?_⟩
        simp only [groundSchemas, htuples, bind, Except.bind]

/-- The table of `defaults` that grounding begins with holds what is true by default, which is
well-typed. -/
theorem wellTyped_defaults (d : Domain α) : d.defaults.1.WellTyped d.declarations := by
  intro f hf
  have hdefault := Universe.mem_defaultTrue.mp (Numbering.mem_toList_ofList.mp hf)
  obtain ⟨decl, hdecl, -, hargs⟩ := Universe.defaultOf_eq_true_iff.mp hdefault
  exact ⟨decl, hdecl, hargs⟩

/-- **Grounding agrees with the check of the listed tuples**: `ground` and `checkListed` fail with
the same errors. -/
theorem Sound.ground_agrees (hd : d.Sound) :
    (d.checkListed d.listed = .ok () ∧
      ∃ g, d.ground = .ok g ∧ g.core.atoms.WellTyped d.declarations) ∨
    ∃ e, d.checkListed d.listed = .error e ∧ d.ground = .error e := by
  obtain ⟨initial, t₁, hinitial, ht₁⟩ :=
    AtomTable.exists_internLiterals (wellTyped_defaults d) hd.initial
  obtain ⟨goals, t₂, hgoals, ht₂⟩ := AtomTable.exists_internLiterals ht₁ hd.goals
  have hdefaults : d.defaults = (d.defaults.1, d.defaults.2) := rfl
  rcases groundSchemas_agrees hd.schemas 0 ht₂ with
    ⟨hlisted, actions, t₃, hactions, ht₃⟩ | ⟨e, hlisted, hactions⟩
  · have h : ∃ g, d.ground = .ok g ∧ g.core.atoms = t₃ := by
      simp only [ground, hinitial, hgoals, hactions, bind, Except.bind]
      exact ⟨_, rfl, rfl⟩
    obtain ⟨g, hg, rfl⟩ := h
    exact Or.inl ⟨hlisted, g, hg, ht₃⟩
  · refine Or.inr ⟨e, hlisted, ?_⟩
    simp only [ground, hinitial, hgoals, hactions, bind, Except.bind]

/-- A tuple is listed for a schema that is declared, under the number of that schema. -/
theorem mem_listed {s : Schema α} {tuple : List ObjectId} :
    (s, tuple) ∈ d.listed ↔ ∃ i tuples, d.schemas[i]? = some s ∧ d.tuples? ⟨i⟩ = some tuples ∧
      tuple ∈ tuples := by
  simp only [listed, listedFrom, List.mem_flatMap, List.mem_map, Prod.exists,
    List.mem_zipIdx_iff_getElem?, Prod.mk.injEq]
  constructor
  · rintro ⟨s', i, hs, tuple', htuple, rfl, rfl⟩
    cases htuples : d.tuples? ⟨i⟩ with
    | none => simp [htuples] at htuple
    | some tuples => exact ⟨i, tuples, hs, htuples, by simpa [htuples] using htuple⟩
  · rintro ⟨i, tuples, hs, htuples, htuple⟩
    exact ⟨s, i, hs, tuple, by simpa [htuples] using htuple, rfl, rfl⟩

/-- **The check of the listed tuples fails at the first one that is `Faulty`**, for the reason that
this tuple is refused. -/
theorem checkListed_eq_error_iff {listed : List (Schema α × List ObjectId)} {e : ModelError} :
    d.checkListed listed = .error e ↔ ∃ before s tuple after,
      listed = before ++ (s, tuple) :: after ∧
      (∀ x ∈ before, ¬x.1.Faulty d.declarations x.2) ∧ s.Refuses d.declarations tuple e := by
  simp only [checkListed, forM_eq_error_iff, Prod.exists, Schema.checkTuple_eq_error_iff,
    Schema.checkTuple_eq_ok_iff, Schema.suits_iff_not_faulty]

/-- `checkListed` passes when no listed tuple is `Faulty`. -/
theorem checkListed_eq_ok_iff {listed : List (Schema α × List ObjectId)} :
    d.checkListed listed = .ok () ↔ ∀ x ∈ listed, ¬x.1.Faulty d.declarations x.2 := by
  simp only [checkListed, forM_eq_ok_iff, Schema.checkTuple_eq_ok_iff,
    Schema.suits_iff_not_faulty]

/-- **Grounding is type-safe.** Grounding a domain that was made of an accepted one fails exactly
when the grounding map lists a faulty tuple for a declared schema, and then for the reason that the
first such tuple is refused. What the checks of templates and of ground fluents could report is
never the reason. When grounding succeeds, every ground fluent that has a number passes the check of
signatures. -/
theorem ground_fails_by_listed (h : d.Configured) :
    (∀ e, d.ground = .error e ↔ ∃ before s tuple after,
      d.listed = before ++ (s, tuple) :: after ∧
      (∀ x ∈ before, ¬x.1.Faulty d.declarations x.2) ∧ s.Refuses d.declarations tuple e) ∧
    ((∃ e, d.ground = .error e) ↔ ∃ i s tuples tuple, d.schemas[i]? = some s ∧
      d.tuples? ⟨i⟩ = some tuples ∧ tuple ∈ tuples ∧ s.Faulty d.declarations tuple) ∧
    (∀ schema index, d.ground ≠ .error (.unboundParameter schema index)) ∧
    (∀ ref, d.ground ≠ .error (.unknownFluent ref)) ∧
    (∀ fluent fault, d.ground ≠ .error (.signatureMismatch fluent fault)) ∧
    ∀ g, d.ground = .ok g →
      ∀ f ∈ g.core.atoms.toList, d.declarations.checkSignature f = .ok () := by
  have hagrees := h.sound.ground_agrees
  have herror : ∀ e, d.ground = .error e ↔ d.checkListed d.listed = .error e := by
    rcases hagrees with ⟨hlisted, g, hg, -⟩ | ⟨e, hlisted, hg⟩
    · simp [hlisted, hg]
    · simp [hlisted, hg]
  have hfirst : ∀ e, d.ground = .error e ↔ ∃ before s tuple after,
      d.listed = before ++ (s, tuple) :: after ∧
      (∀ x ∈ before, ¬x.1.Faulty d.declarations x.2) ∧ s.Refuses d.declarations tuple e :=
    fun e => (herror e).trans checkListed_eq_error_iff
  have hrefused : ∀ {e}, d.ground = .error e →
      ∃ (s : Schema α) (tuple : List ObjectId), s.Refuses d.declarations tuple e := by
    intro e he
    obtain ⟨-, s, tuple, -, -, -, hrefuses⟩ := (hfirst e).mp he
    exact ⟨s, tuple, hrefuses⟩
  refine ⟨hfirst, ?_, ?_, ?_, ?_, ?_⟩
  · constructor
    · rintro ⟨e, he⟩
      by_contra hnone
      have hok : d.checkListed d.listed = .ok () := by
        rw [checkListed_eq_ok_iff]
        rintro ⟨s, tuple⟩ hlisted hfaulty
        obtain ⟨i, tuples, hs, htuples, htuple⟩ := mem_listed.mp hlisted
        exact hnone ⟨i, s, tuples, tuple, hs, htuples, htuple, hfaulty⟩
      rw [herror, hok] at he
      exact absurd he (by simp)
    · rintro ⟨i, s, tuples, tuple, hs, htuples, htuple, hfaulty⟩
      rcases hagrees with ⟨hlisted, -⟩ | ⟨e, -, he⟩
      · exact absurd hfaulty (checkListed_eq_ok_iff.mp hlisted _
          (mem_listed.mpr ⟨i, tuples, hs, htuples, htuple⟩))
      · exact ⟨e, he⟩
  · intro schema index he
    obtain ⟨s, tuple, hrefuses⟩ := hrefused he
    cases hrefuses with
    | place _ hplace _ => cases hplace
  · intro ref he
    obtain ⟨s, tuple, hrefuses⟩ := hrefused he
    cases hrefuses with
    | place _ hplace _ => cases hplace
  · intro fluent fault he
    obtain ⟨s, tuple, hrefuses⟩ := hrefused he
    cases hrefuses with
    | place _ hplace _ => cases hplace
  · intro g hg f hf
    rcases hagrees with ⟨-, g', hg', htable⟩ | ⟨e, -, he⟩
    · obtain rfl : g' = g := Except.ok.inj (hg'.symm.trans hg)
      exact Universe.checkSignature_eq_ok_iff.mpr (htable f hf)
    · exact absurd (he.symm.trans hg) (by simp)

/-- Reading a book in the lit hall; the reader may have to try again. -/
def reading (p : ℚ) : Schema ℚ :=
  let s : Schema ℚ := { name := "read", params := [("what", ⟨1⟩)], duration := 1 }
  (s.require .atStart (.constant ⟨0⟩ [⟨0⟩]) true).draw [⟨⟨1⟩, [.param 0]⟩]
    (.fixed [⟨p, [(0, true)]⟩, .unchanged ((1 : ℚ) - p)])

/-- A library with a hall and an atlas. Lists of tuples come later. -/
def library (deadline : ℕ) (p : ℚ) : Domain ℚ where
  name := "library"
  kind := .regular
  declarations := {
    types := #[⟨"room"⟩, ⟨"book"⟩]
    objects := #[⟨"hall", ⟨0⟩⟩, ⟨"atlas", ⟨1⟩⟩]
    fluents := #[⟨"lit", [⟨0⟩], true⟩, ⟨"known", [⟨1⟩], false⟩] }
  schemas := [reading p]
  goals := [(⟨⟨1⟩, [⟨1⟩]⟩, true)]
  deadline

/-- In the library the atlas can be read, and the hall cannot. That the third tuple is too short is
not noticed any more. -/
theorem ground_fails_by_listed_library :
    let d := (library 5 (1 / 2)).withGrounding ⟨[(⟨0⟩, [[⟨1⟩], [⟨0⟩], []])]⟩
    d.Configured ∧ d.ground = .error (.typeMismatch "read" "what" "book" "hall" "room") := by
  intro d
  have hbuild : (library 3 1).build = .ok (library 3 1) := rfl
  have hlaw : ((library 3 1).withDeadline 5).withLaw "read" 0
      (.fixed [⟨1 / 2, [(0, true)]⟩, .unchanged ((1 : ℚ) - 1 / 2)]) = .ok (library 5 (1 / 2)) := rfl
  have hconfigured : d.Configured :=
    .withGrounding _ (.withLaw (.withDeadline 5 (.built hbuild)) hlaw)
  refine ⟨hconfigured, ((ground_fails_by_listed hconfigured).1 _).mpr
    ⟨[(reading (1 / 2), [⟨1⟩])], reading (1 / 2), [⟨0⟩], [(reading (1 / 2), [])], rfl, ?_, ?_⟩⟩
  · intro x hx
    obtain rfl := List.mem_singleton.mp hx
    exact Schema.suits_iff_not_faulty.mp rfl
  · exact Schema.checkTuple_eq_error_iff.mp rfl

end Domain

end DurativePlanning
