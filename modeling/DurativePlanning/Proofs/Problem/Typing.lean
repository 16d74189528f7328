import DurativePlanning.Domain.Validation
import DurativePlanning.Problem.Ground
import DurativePlanning.Proofs.Checks
import Mathlib.Data.List.Forall2

/-!
# Well-Typed Ground Fluents

The checks of a domain look at signatures, arguments and terms one by one. Read together, they say
that a ground fluent has a declaration whose parameter types are the types of its arguments, and
that a template of an accepted schema becomes such a ground fluent under every tuple of objects to
which the schema may be applied.

* `Universe.WellTyped`: the ground fluents of a universe.
* `Universe.checkSignature_eq_ok_iff`: they are the ones that pass the check of signatures.
* `Universe.mem_tuplesOf`, `Universe.mem_defaultTrue`: what the enumerations list.
* `Schema.exists_bind_of_checkTemplate`: substitution keeps types.
* `Domain.of_build_eq_ok`: what an accepted domain has passed.
-/

namespace DurativePlanning

variable {α : Type} {u : Universe}

namespace Universe

/-- A ground fluent is **well-typed** when it is declared and its arguments are objects of the types
that the declaration asks for. -/
def WellTyped (u : Universe) (f : GroundFluent) : Prop :=
  ∃ decl, u.fluent? f.fluent = some decl ∧ f.args.map u.typeOf? = decl.params.map some

instance (u : Universe) (f : GroundFluent) : Decidable (u.WellTyped f) :=
  decidable_of_iff ((u.fluent? f.fluent).any fun decl =>
    f.args.map u.typeOf? == decl.params.map some) (by simp [WellTyped, Option.any_eq_true])

/-- The value that a `WellTyped` ground fluent has by declaration. -/
def defaultOf (u : Universe) (f : GroundFluent) : Bool :=
  decide (u.WellTyped f) && (u.fluent? f.fluent).any (·.default)

/-- `defaultOf` is true of the well-typed ground fluents whose declaration says so. -/
theorem defaultOf_eq_true_iff {f : GroundFluent} :
    u.defaultOf f = true ↔ ∃ decl, u.fluent? f.fluent = some decl ∧ decl.default = true ∧
      f.args.map u.typeOf? = decl.params.map some := by
  rw [defaultOf, Bool.and_eq_true, decide_eq_true_iff, Option.any_eq_true]
  constructor
  · rintro ⟨⟨decl, hdecl, hargs⟩, decl', hdecl', hdefault⟩
    obtain rfl : decl = decl' := Option.some.inj (hdecl.symm.trans hdecl')
    exact ⟨decl, hdecl, hdefault, hargs⟩
  · rintro ⟨decl, hdecl, hdefault, hargs⟩
    exact ⟨⟨decl, hdecl, hargs⟩, decl, hdecl, hdefault⟩

/-- `typeOf?` an object is the type of its declaration. -/
theorem typeOf?_eq_some_iff {o : ObjectId} {type : TypeId} :
    u.typeOf? o = some type ↔ ∃ decl, u.object? o = some decl ∧ decl.type = type := by
  simp [typeOf?]

/-! ### Signatures -/

/-- `checkArguments` passes when the arguments have the expected types. -/
theorem checkArguments_eq_ok_iff {fluent : String} {position : ℕ} {types : List TypeId}
    {objects : List ObjectId} (hlength : types.length = objects.length) :
    u.checkArguments fluent position types objects = .ok () ↔
      objects.map u.typeOf? = types.map some := by
  induction types generalizing position objects with
  | nil =>
      obtain rfl := List.length_eq_zero_iff.mp hlength.symm
      simp [checkArguments]
  | cons expected types ih =>
      obtain ⟨object, objects, rfl⟩ := List.exists_cons_of_length_eq_add_one hlength.symm
      rw [checkArguments, List.map_cons, List.map_cons, List.cons.injEq, typeOf?_eq_some_iff]
      cases hobject : u.object? object with
      | none => simp
      | some decl =>
          by_cases htype : decl.type = expected
          · simp [htype, ih (Nat.succ.inj hlength)]
          · simp [htype]

/-- **The check of a signature**: `checkSignature` accepts the `WellTyped` ground fluents. -/
theorem checkSignature_eq_ok_iff {f : GroundFluent} :
    u.checkSignature f = .ok () ↔ u.WellTyped f := by
  rw [checkSignature, WellTyped]
  cases hdecl : u.fluent? f.fluent with
  | none => simp
  | some decl =>
      by_cases hlength : decl.params.length = f.args.length
      · simp [hlength, checkArguments_eq_ok_iff hlength]
      · simp only [if_neg hlength, Option.some.injEq, exists_eq_left', reduceCtorEq, false_iff]
        intro htypes
        exact hlength (by simpa using (congrArg List.length htypes).symm)

/-! ### Enumerations -/

/-- `allObjects` are those with a number below the size of the table. -/
theorem mem_allObjects {o : ObjectId} : o ∈ u.allObjects ↔ o.index < u.objects.size := by
  obtain ⟨i⟩ := o
  simp [allObjects]

/-- `allFluents` are those with a number below the size of the table. -/
theorem mem_allFluents {id : FluentId} : id ∈ u.allFluents ↔ id.index < u.fluents.size := by
  obtain ⟨i⟩ := id
  simp [allFluents]

/-- `objectsOf` a type lists the objects that have it. -/
theorem mem_objectsOf {o : ObjectId} {type : TypeId} :
    o ∈ u.objectsOf type ↔ u.typeOf? o = some type := by
  rw [objectsOf, List.mem_filter, mem_allObjects, beq_iff_eq, and_iff_right_iff_imp,
    typeOf?_eq_some_iff]
  rintro ⟨decl, hdecl, -⟩
  exact (Array.getElem?_eq_some_iff.mp hdecl).1

end Universe

/-- `tuplesOver` some lists takes one member from each. -/
theorem mem_tuplesOver {β : Type} {lists : List (List β)} {tuple : List β} :
    tuple ∈ tuplesOver lists ↔ List.Forall₂ (fun x options => x ∈ options) tuple lists := by
  induction lists generalizing tuple with
  | nil => simp [tuplesOver]
  | cons options rest ih =>
      simp only [tuplesOver, List.mem_flatMap, List.mem_map, ih]
      constructor
      · rintro ⟨x, hx, tail, htail, rfl⟩
        exact .cons hx htail
      · rintro (_ | ⟨hx, htail⟩)
        exact ⟨_, hx, _, htail, rfl⟩

namespace Universe

/-- **The tuples of given types**: `tuplesOf` lists those whose members have the types, place by
place. -/
theorem mem_tuplesOf {types : List TypeId} {tuple : List ObjectId} :
    tuple ∈ u.tuplesOf types ↔ tuple.map u.typeOf? = types.map some := by
  rw [tuplesOf, mem_tuplesOver, List.forall₂_map_right_iff, ← List.forall₂_eq_eq_eq,
    List.forall₂_map_left_iff, List.forall₂_map_right_iff]
  simp only [mem_objectsOf]

/-- **The ground fluents listed as true by default**: `defaultTrue` lists the well-typed ones whose
declaration says so. -/
theorem mem_defaultTrue {f : GroundFluent} : f ∈ u.defaultTrue ↔ u.defaultOf f = true := by
  rw [defaultTrue, List.mem_flatMap, defaultOf_eq_true_iff]
  constructor
  · rintro ⟨id, -, hf⟩
    cases hdecl : u.fluent? id with
    | none => simp [hdecl] at hf
    | some decl =>
        by_cases hdefault : decl.default = true
        · simp only [hdecl, if_pos hdefault, List.mem_map, mem_tuplesOf] at hf
          obtain ⟨tuple, htuple, rfl⟩ := hf
          exact ⟨decl, hdecl, hdefault, htuple⟩
        · simp [hdecl, hdefault] at hf
  · rintro ⟨decl, hdecl, hdefault, hargs⟩
    refine ⟨f.fluent, mem_allFluents.mpr (Array.getElem?_eq_some_iff.mp hdecl).1, ?_⟩
    simp only [hdecl, if_pos hdefault, List.mem_map, mem_tuplesOf]
    exact ⟨f.args, hargs, rfl⟩

end Universe

/-! ### Substitution -/

namespace Schema

variable {s : Schema α} {tuple : List ObjectId}

/-- A tuple **suits** a schema when its members have the types of the parameters. -/
def Suits (u : Universe) (s : Schema α) (tuple : List ObjectId) : Prop :=
  tuple.map u.typeOf? = (s.params.map Prod.snd).map some

/-- `checkObjects` passes when the objects have the types of the parameters. -/
theorem checkObjects_eq_ok_iff {params : List (String × TypeId)} {objects : List ObjectId}
    (hlength : objects.length = params.length) :
    s.checkObjects u params objects = .ok () ↔
      objects.map u.typeOf? = (params.map Prod.snd).map some := by
  induction params generalizing objects with
  | nil =>
      obtain rfl := List.length_eq_zero_iff.mp hlength
      simp [checkObjects]
  | cons param params ih =>
      obtain ⟨object, objects, rfl⟩ := List.exists_cons_of_length_eq_add_one hlength
      rw [checkObjects, List.map_cons, List.map_cons, List.map_cons, List.cons.injEq,
        Universe.typeOf?_eq_some_iff]
      cases hobject : u.object? object with
      | none => simp
      | some decl =>
          by_cases htype : decl.type = param.2
          · simp [htype, ih (Nat.succ.inj hlength)]
          · simp [htype]

/-- **The check of a tuple**: `checkTuple` accepts the tuples that suit the schema. -/
theorem checkTuple_eq_ok_iff : s.checkTuple u tuple = .ok () ↔ s.Suits u tuple := by
  rw [checkTuple, Suits]
  by_cases hlength : tuple.length = s.params.length
  · rw [if_pos hlength, checkObjects_eq_ok_iff hlength]
  · simp only [if_neg hlength, reduceCtorEq, false_iff]
    intro htypes
    exact hlength (by simpa using congrArg List.length htypes)

/-- A term stands for an object of its type. -/
theorem exists_bind_of_termType (hsuits : s.Suits u tuple) {term : Term} {type : TypeId}
    (h : s.termType u term = .ok type) :
    ∃ o, term.bind tuple = some o ∧ u.typeOf? o = some type := by
  cases term with
  | param index =>
      rw [termType] at h
      split at h
      · next name type' hparam =>
        obtain rfl := Except.ok.inj h
        have htype : (tuple.map u.typeOf?)[index]? = some (some type') := by
          rw [hsuits, List.map_map, List.getElem?_map, hparam]
          rfl
        rw [List.getElem?_map] at htype
        exact Option.map_eq_some_iff.mp htype
      · exact absurd h (by simp)
  | object id =>
      rw [termType] at h
      split at h
      · next decl hdecl =>
        exact ⟨id, rfl, Universe.typeOf?_eq_some_iff.mpr ⟨decl, hdecl, Except.ok.inj h⟩⟩
      · exact absurd h (by simp)

/-- Terms stand for objects of the types that they have been checked against. -/
theorem exists_mapM_of_checkTerms (hsuits : s.Suits u tuple) {fluent : String}
    {types : List TypeId} {terms : List Term} (hlength : types.length = terms.length)
    (h : s.checkTerms u fluent types terms = .ok ()) :
    ∃ objects, terms.mapM (Term.bind tuple) = some objects ∧
      objects.map u.typeOf? = types.map some := by
  induction types generalizing terms with
  | nil =>
      obtain rfl := List.length_eq_zero_iff.mp hlength.symm
      exact ⟨[], rfl, rfl⟩
  | cons expected types ih =>
      obtain ⟨term, terms, rfl⟩ := List.exists_cons_of_length_eq_add_one hlength.symm
      simp only [checkTerms, bind_eq_ok_iff] at h
      obtain ⟨found, hfound, h⟩ := h
      split at h
      · next htype =>
        obtain ⟨o, hbind, ho⟩ := exists_bind_of_termType hsuits hfound
        obtain ⟨objects, hobjects, htypes⟩ := ih (Nat.succ.inj hlength) h
        refine ⟨o :: objects, ?_, by rw [List.map_cons, ho, htypes, htype, List.map_cons]⟩
        simp [List.mapM_cons, hbind, hobjects]
      · exact absurd h (by simp)

/-- **Substitution keeps types**: under a tuple that suits the schema, a template that
`checkTemplate` accepts stands for a well-typed ground fluent. -/
theorem exists_bind_of_checkTemplate (hsuits : s.Suits u tuple) {τ : Template}
    (h : s.checkTemplate u τ = .ok ()) : ∃ f, τ.bind tuple = some f ∧ u.WellTyped f := by
  rw [checkTemplate] at h
  split at h
  · exact absurd h (by simp)
  · next decl hdecl =>
    split at h
    · next hlength =>
      obtain ⟨objects, hobjects, htypes⟩ := exists_mapM_of_checkTerms hsuits hlength h
      exact ⟨⟨τ.fluent, objects⟩, by rw [Template.bind, hobjects]; rfl, decl, hdecl, htypes⟩
    · exact absurd h (by simp)

end Schema

/-! ### Domains -/

namespace Domain

/-- **What an accepted domain has passed**: `build` has checked that its initial values and goals
are well-typed, and that the templates of its schemas fit their fluents. -/
theorem of_build_eq_ok {authored d : Domain α} (h : authored.build = .ok d) :
    (∀ x ∈ d.initial, d.declarations.WellTyped x.1) ∧
    (∀ x ∈ d.goals, d.declarations.WellTyped x.1) ∧
    ∀ s ∈ d.schemas, ∀ τ ∈ s.templates, s.checkTemplate d.declarations τ = .ok () := by
  simp only [build, bind_eq_ok_iff] at h
  obtain ⟨⟨⟩, hvalid, h⟩ := h
  obtain rfl := Except.ok.inj h
  simp only [validate, bind_eq_ok_iff] at hvalid
  obtain ⟨⟨⟩, hvalues, ⟨⟩, hschemas, -⟩ := hvalid
  rw [forM_eq_ok_iff, List.forall_mem_append] at hvalues
  rw [forM_eq_ok_iff] at hschemas
  refine ⟨fun x hx => Universe.checkSignature_eq_ok_iff.mp (hvalues.1 x hx),
    fun x hx => Universe.checkSignature_eq_ok_iff.mp (hvalues.2 x hx), fun s hs τ hτ => ?_⟩
  have hs := hschemas s hs
  simp only [Schema.validate, bind_eq_ok_iff] at hs
  obtain ⟨⟨⟩, htemplates, -⟩ := hs
  exact forM_eq_ok_iff.mp htemplates τ hτ

/-- The tuples that `tuplesFor` gives suit the schema, whether they are listed or enumerated. -/
theorem suits_of_tuplesFor {d : Domain α} {id : SchemaId} {s : Schema α}
    {tuples : List (List ObjectId)} (h : d.tuplesFor id s = .ok tuples) :
    ∀ tuple ∈ tuples, s.Suits d.declarations tuple := by
  intro tuple htuple
  rw [tuplesFor] at h
  split at h
  · obtain ⟨⟨⟩, hchecked, h⟩ := bind_eq_ok_iff.mp h
    obtain rfl := Except.ok.inj h
    exact Schema.checkTuple_eq_ok_iff.mp (forM_eq_ok_iff.mp hchecked tuple htuple)
  · obtain rfl := Except.ok.inj h
    exact Universe.mem_tuplesOf.mp htuple

end Domain

end DurativePlanning
