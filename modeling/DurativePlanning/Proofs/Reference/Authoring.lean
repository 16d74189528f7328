import DurativePlanning.Proofs.Problem.Naming
import DurativePlanning.Proofs.Problem.Replacement
import DurativePlanning.Reference.Rover

/-!
# Authoring a Domain of Any Size

A reference domain is authored by declarations under new names, by schemas each of which is
restricted to some tuples, and by initial values and goals. None of these steps fails when the names
are new and the types are declared, and what they add up to can be written down.

* `Universe.addType_of_new`, `Universe.addObject_of_new`, `Universe.addFluent_of_new`: one
  declaration.
* `Reference.ObjectBlock`, `Reference.addNumbered_of_apart`: objects of one type, named by a letter
  and a number.
* `Domain.Restricts`: a domain whose schemas are all restricted to listed tuples.
* `Domain.foldlM_addRestricted`: authoring such schemas one after the other.
* `Domain.Restricts.exists_ground`: grounding succeeds when the listed tuples suit their schemas.
-/

namespace DurativePlanning

variable {α : Type}

/-- A step that succeeds before a chain. -/
theorem ok_bind {ε β γ : Type} (x : β) (f : β → Except ε γ) : (Except.ok x >>= f) = f x := rfl

/-! ### Declarations -/

namespace Universe

variable {u : Universe} {name : String}

/-- `Array.any` finds no declaration with a name that is not among the names of the list. -/
theorem any_name_eq_false {β : Type} {nameOf : β → String} {decls : Array β}
    (h : name ∉ decls.toList.map nameOf) : ¬(decls.any fun decl => nameOf decl == name) = true := by
  rw [← Array.any_toList, List.any_eq_true]
  rintro ⟨decl, hdecl, hname⟩
  exact h (beq_iff_eq.mp hname ▸ List.mem_map_of_mem hdecl)

/-- `addType` with a new name gives it the next number. -/
theorem addType_of_new (h : name ∉ u.types.toList.map (·.name)) :
    u.addType name = .ok (⟨u.types.size⟩, { u with types := u.types.push ⟨name⟩ }) := by
  rw [addType, declareType, if_neg (any_name_eq_false h)]
  rfl

/-- `addObject` of a declared type with a new name gives it the next number. -/
theorem addObject_of_new {types : Array TypeDecl} {objects : List ObjectDecl}
    {fluents : Array FluentDecl} {type : TypeId} (htype : types[type.index]?.isSome = true)
    (h : name ∉ objects.map (·.name)) : addObject ⟨types, objects.toArray, fluents⟩ name type =
      .ok (⟨objects.length⟩, ⟨types, (objects ++ [ObjectDecl.mk name type]).toArray, fluents⟩) := by
  have hdeclared : ¬types[type.index]?.isNone = true := by
    simp [Option.isNone_eq_false_iff.mpr htype]
  have hnew : ¬(objects.toArray.any fun decl => decl.name == name) = true := any_name_eq_false h
  simp only [addObject, declareObject, type?, if_neg hdeclared, if_neg hnew]
  rw [List.push_toArray, List.size_toArray]
  rfl

/-- `addFluent` with declared types and a new name gives it the next number. -/
theorem addFluent_of_new {types : Array TypeDecl} {objects : Array ObjectDecl}
    {fluents : Array FluentDecl} {params : List TypeId} {default : Bool}
    (htypes : ∀ type ∈ params, types[type.index]?.isSome = true)
    (h : name ∉ fluents.toList.map (·.name)) :
    addFluent ⟨types, objects, fluents⟩ name params default =
      .ok (⟨fluents.size⟩, ⟨types, objects, fluents.push ⟨name, params, default⟩⟩) := by
  have hdeclared : params.find? (fun type => types[type.index]?.isNone) = none :=
    List.find?_eq_none.mpr fun type hmem => by
      simp [Option.isNone_eq_false_iff.mpr (htypes type hmem)]
  have hnew : ¬(fluents.any fun decl => decl.name == name) = true := any_name_eq_false h
  simp only [addFluent, declareFluent, type?, hdeclared, if_neg hnew]
  rfl

end Universe

namespace Reference

/-- A **block** of objects of one type, named by a letter and a number. -/
structure ObjectBlock where
  letter : String
  count : ℕ
  type : TypeId

namespace ObjectBlock

/-- The objects of a block: the letter of the block, followed by the numbers below its count. -/
def decls (b : ObjectBlock) : List ObjectDecl :=
  (List.range b.count).map fun i => ⟨b.letter ++ toString i, b.type⟩

/-- Two blocks are told apart by their letters. -/
def Apart (b b' : ObjectBlock) : Prop := b.letter.length = b'.letter.length ∧ b.letter ≠ b'.letter

variable {b b' : ObjectBlock} {blocks : List ObjectBlock}

theorem length_decls (b : ObjectBlock) : b.decls.length = b.count := by simp [decls]

/-- The objects of a block are those named by its letter and a number below its count. -/
theorem mem_decls {o : ObjectDecl} :
    o ∈ b.decls ↔ ∃ i < b.count, o = ⟨b.letter ++ toString i, b.type⟩ := by
  simp [decls, eq_comm]

/-- The number tells objects of one block apart. -/
theorem name_inj {letter : String} {i j : ℕ} (h : letter ++ toString i = letter ++ toString j) :
    i = j := Storage.injective_toString ((String.append_right_inj letter).mp h)

/-- The letter tells objects of two blocks apart. -/
theorem Apart.name_ne (h : b.Apart b') (i j : ℕ) :
    b.letter ++ toString i ≠ b'.letter ++ toString j := by
  intro hname
  have hchars := congrArg String.toList hname
  rw [String.toList_append, String.toList_append] at hchars
  exact h.2 (String.toList_inj.mp (List.append_inj_left hchars
    (by rw [String.length_toList, String.length_toList, h.1])))

/-- Objects of blocks that are `Apart` have names of their own. -/
theorem nodup_names (h : blocks.Pairwise Apart) :
    ((blocks.flatMap decls).map (·.name)).Nodup := by
  rw [List.Nodup, List.pairwise_map, List.pairwise_flatMap]
  constructor
  · intro b _
    rw [decls, List.pairwise_map]
    exact List.nodup_range.imp fun hne hname => hne (name_inj hname)
  · refine h.imp fun hapart o ho o' ho' => ?_
    obtain ⟨i, -, rfl⟩ := mem_decls.mp ho
    obtain ⟨j, -, rfl⟩ := mem_decls.mp ho'
    exact hapart.name_ne i j

/-- The objects of a block come after those of the blocks before it. -/
theorem getElem?_blocks {i j : ℕ} (hb : blocks[j]? = some b) (hi : i < b.count) :
    (blocks.flatMap decls)[((blocks.take j).map (·.count)).sum + i]? =
      some ⟨b.letter ++ toString i, b.type⟩ := by
  obtain ⟨hj, rfl⟩ := List.getElem?_eq_some_iff.mp hb
  have hblocks : blocks = blocks.take j ++ blocks[j] :: blocks.drop (j + 1) := by simp
  have hlength : ((blocks.take j).flatMap decls).length =
      ((blocks.take j).map (·.count)).sum := by
    rw [List.length_flatMap]
    simp only [length_decls]
  rw [← hlength, congrArg (List.flatMap decls) hblocks, List.flatMap_append, List.flatMap_cons,
    List.getElem?_append_right (Nat.le_add_right _ _), Nat.add_sub_cancel_left,
    List.getElem?_append_left (by rwa [length_decls])]
  simp [decls, hi]

/-- The name of an object of a block `IsPlain` when its letter is. -/
theorem isPlain_of_mem_decls (h : IsPlain b.letter) {o : ObjectDecl} (ho : o ∈ b.decls) :
    IsPlain o.name := by
  obtain ⟨i, -, rfl⟩ := mem_decls.mp ho
  intro c hc
  rw [String.toList_append, List.mem_append] at hc
  rcases hc with hc | hc
  · exact h c hc
  · rw [Nat.toString_eq_ofList_toDigits, String.toList_ofList] at hc
    have hdigit := Nat.isDigit_of_mem_toDigits (by decide) (by decide) hc
    exact fun hmem => absurd hdigit
      ((by simp [separators] : ∀ c ∈ separators, ¬c.isDigit = true) c hmem)

end ObjectBlock

/-- **Objects of a block are declared** by `addNumbered` after those of other blocks. -/
theorem addNumbered_of_apart {types : Array TypeDecl} {fluents : Array FluentDecl}
    {blocks : List ObjectBlock} (b : ObjectBlock) (htype : types[b.type.index]?.isSome = true)
    (h : ∀ b' ∈ blocks, b'.Apart b) :
    addNumbered ⟨types, (blocks.flatMap (·.decls)).toArray, fluents⟩ b.letter b.count b.type =
      .ok ⟨types, ((blocks ++ [b]).flatMap (·.decls)).toArray, fluents⟩ := by
  obtain ⟨letter, count, type⟩ := b
  induction count with
  | zero => simp [addNumbered, ObjectBlock.decls, pure, Except.pure]
  | succ count ih =>
      have hnew : letter ++ toString count ∉
          ((blocks ++ [ObjectBlock.mk letter count type]).flatMap (·.decls)).map (·.name) := by
        rw [List.flatMap_append, List.map_append, List.mem_append, List.flatMap_singleton]
        rintro (hmem | hmem)
        · obtain ⟨o, ho, hname⟩ := List.mem_map.mp hmem
          obtain ⟨b', hb', ho⟩ := List.mem_flatMap.mp ho
          obtain ⟨i, -, rfl⟩ := ObjectBlock.mem_decls.mp ho
          exact (h b' hb').name_ne i count hname
        · obtain ⟨o, ho, hname⟩ := List.mem_map.mp hmem
          obtain ⟨i, hi, rfl⟩ := ObjectBlock.mem_decls.mp ho
          exact hi.ne (ObjectBlock.name_inj hname)
      rw [addNumbered] at ih ⊢
      rw [List.range_succ, List.foldlM_append, ih htype h]
      change (·.2) <$> Universe.addObject _ _ _ >>= pure = _
      rw [Universe.addObject_of_new htype hnew]
      simp [ObjectBlock.decls, List.range_succ, Functor.map, Except.map, bind, Except.bind, pure,
        Except.pure]

/-- **Blocks that are told apart** are declared by `addNumbered` one after the other. -/
theorem foldlM_addNumbered {types : Array TypeDecl} {fluents : Array FluentDecl}
    {blocks : List ObjectBlock} (htypes : ∀ b ∈ blocks, types[b.type.index]?.isSome = true)
    (h : blocks.Pairwise ObjectBlock.Apart) :
    blocks.foldlM (fun u b => addNumbered u b.letter b.count b.type) ⟨types, #[], fluents⟩ =
      .ok ⟨types, (blocks.flatMap (·.decls)).toArray, fluents⟩ := by
  -- the blocks that were declared already stand before those that are left
  suffices hgeneral : ∀ before, (before ++ blocks).Pairwise ObjectBlock.Apart →
      blocks.foldlM (fun u b => addNumbered u b.letter b.count b.type)
        ⟨types, (before.flatMap (·.decls)).toArray, fluents⟩ =
      .ok ⟨types, ((before ++ blocks).flatMap (·.decls)).toArray, fluents⟩ from hgeneral [] h
  clear h
  induction blocks with
  | nil =>
      intro before _
      rw [List.append_nil]
      rfl
  | cons b rest ih =>
      intro before h
      rw [List.forall_mem_cons] at htypes
      have hapart : ∀ b' ∈ before, b'.Apart b := fun b' hb' =>
        (List.pairwise_append.mp h).2.2 b' hb' b List.mem_cons_self
      rw [List.foldlM_cons, addNumbered_of_apart b htypes.1 hapart, ok_bind,
        ih htypes.2 _ (by rwa [← List.append_cons]), ← List.append_cons]

end Reference

/-! ### Initial values and goals -/

namespace Domain

/-- `addInitial` for the members of a list puts them at the end of the initial values, in order. -/
theorem foldl_addInitial {ι : Type} (f : ι → GroundFluent) (l : List ι) (d : Domain α) :
    l.foldl (fun d x => d.addInitial (f x) true) d =
      { d with initial := d.initial ++ l.map fun x => (f x, true) } := by
  induction l generalizing d with
  | nil => simp
  | cons x rest ih =>
      rw [List.foldl_cons, ih]
      simp [addInitial]

/-- `addGoal` for the members of a list puts them at the end of the goals, in order. -/
theorem foldl_addGoal {ι : Type} (f : ι → GroundFluent) (l : List ι) (d : Domain α) :
    l.foldl (fun d x => d.addGoal (f x) true) d =
      { d with goals := d.goals ++ l.map fun x => (f x, true) } := by
  induction l generalizing d with
  | nil => simp
  | cons x rest ih =>
      rw [List.foldl_cons, ih]
      simp [addGoal]

/-! ### Schemas that are restricted to some tuples -/

/-- `GroundingMap.insertInto` puts the entry of a schema that comes after all others at the end. -/
theorem insertInto_of_forall_lt {id : SchemaId} {tuples : List (List ObjectId)}
    {entries : List (SchemaId × List (List ObjectId))}
    (h : ∀ e ∈ entries, e.1.index < id.index) :
    GroundingMap.insertInto id tuples entries = entries ++ [(id, tuples)] := by
  induction entries with
  | nil => rfl
  | cons e rest ih =>
      rw [List.forall_mem_cons] at h
      have hne : id ≠ e.1 := fun heq => absurd (heq ▸ h.1) (Nat.lt_irrefl _)
      rw [GroundingMap.insertInto, if_neg (Nat.lt_asymm h.1), if_neg hne, ih h.2]
      rfl

variable {d : Domain α} {entries : List (SchemaId × List (List ObjectId))}

/-- **A schema with a new name** is added together with its tuples, by `addSchema` and
`addGrounding`. -/
theorem addRestricted_of_new {s : Schema α} {tuples : List (List ObjectId)}
    (hname : s.name ∉ d.schemas.map (·.name)) (hgrounding : d.grounding.getD .empty = ⟨entries⟩)
    (hentries : ∀ e ∈ entries, e.1.index < d.schemas.length) :
    (do
      let (id, d) ← d.addSchema s
      return d.addGrounding id tuples) =
    (.ok { d with
      schemas := d.schemas ++ [s]
      grounding := some ⟨entries ++ [(⟨d.schemas.length⟩, tuples)]⟩ } :
        Except ModelError (Domain α)) := by
  have hnew : ¬(d.schemas.any fun other => other.name == s.name) = true := by
    rw [List.any_eq_true]
    rintro ⟨other, hother, hsame⟩
    exact hname (beq_iff_eq.mp hsame ▸ List.mem_map_of_mem hother)
  rw [addSchema, if_neg hnew]
  change Except.ok (Domain.addGrounding _ _ _) = _
  rw [addGrounding, hgrounding, GroundingMap.insert, insertInto_of_forall_lt hentries]

/-- What adds the schemas of some members of a list, each with its tuples. -/
def AddsRestricted {ι : Type} (step : Domain α → ι → Except ModelError (Domain α))
    (entry : ι → Schema α × List (List ObjectId)) : Prop :=
  ∀ d x, step d x = (do
    let (id, d) ← d.addSchema (entry x).1
    return d.addGrounding id (entry x).2)

variable {ι : Type} {step : Domain α → ι → Except ModelError (Domain α)}
  {entry : ι → Schema α × List (List ObjectId)}

/-- Schemas with names of their own are added one after the other. -/
theorem foldlM_addRestricted (hstep : AddsRestricted step entry) {l : List ι}
    (hnames : ((d.schemas ++ l.map fun x => (entry x).1).map (·.name)).Nodup)
    (hgrounding : d.grounding = some ⟨entries⟩)
    (hentries : ∀ e ∈ entries, e.1.index < d.schemas.length) :
    l.foldlM step d = .ok { d with
      schemas := d.schemas ++ l.map fun x => (entry x).1
      grounding := some ⟨entries ++
        (l.zipIdx d.schemas.length).map fun x => (⟨x.2⟩, (entry x.1).2)⟩ } := by
  induction l generalizing d entries with
  | nil => simp [← hgrounding, pure, Except.pure]
  | cons x rest ih =>
      have hfirst : (entry x).1.name ∉ d.schemas.map (·.name) := by
        rw [List.map_append, List.map_cons, List.map_cons] at hnames
        exact fun hmem => (List.nodup_append.mp hnames).2.2 _ hmem _ List.mem_cons_self rfl
      rw [List.foldlM_cons, hstep, addRestricted_of_new hfirst (by rw [hgrounding]; rfl) hentries]
      refine (ih (by simpa using hnames) rfl ?_).trans ?_
      · intro e he
        rw [List.length_append, List.length_singleton]
        rcases List.mem_append.mp he with he | he
        · exact Nat.lt_succ_of_lt (hentries e he)
        · obtain rfl := List.mem_singleton.mp he
          exact Nat.lt_succ_self _
      · simp [List.zipIdx_cons]

/-- **Authoring restricted schemas** in a domain that has no schemas yet: it `Restricts` them
afterwards. -/
theorem foldlM_addRestricted_of_empty (hstep : AddsRestricted step entry) {l : List ι}
    (hl : l ≠ []) (hnames : ((l.map fun x => (entry x).1).map (·.name)).Nodup)
    (hschemas : d.schemas = []) (hgrounding : d.grounding = none) :
    l.foldlM step d = .ok { d with
      schemas := l.map fun x => (entry x).1
      grounding := some ⟨l.zipIdx.map fun x => (⟨x.2⟩, (entry x.1).2)⟩ } := by
  obtain ⟨first, rest, rfl⟩ := List.exists_cons_of_ne_nil hl
  have hempty : step d first = step (d.withGrounding .empty) first := by
    rw [hstep, hstep, addSchema, addSchema, withGrounding, hschemas]
    simp only [addGrounding, hgrounding]
    rfl
  rw [List.foldlM_cons, hempty, ← List.foldlM_cons,
    foldlM_addRestricted hstep (by simpa [withGrounding, hschemas] using hnames)
      (rfl : (d.withGrounding .empty).grounding = some ⟨[]⟩) (by simp)]
  simp [withGrounding, hschemas]

/-- **A domain whose schemas are all restricted** to the tuples that `l` lists for them. -/
structure Restricts (d : Domain α) (l : List (Schema α × List (List ObjectId))) : Prop where
  schemas : d.schemas = l.map Prod.fst
  grounding : d.grounding = some ⟨l.zipIdx.map fun x => (⟨x.2⟩, x.1.2)⟩

/-- The tuples of a schema are found under its number. -/
theorem lookup_zipIdx (l : List (Schema α × List (List ObjectId))) (next i : ℕ) :
    ((l.zipIdx next).map fun x => ((⟨x.2⟩ : SchemaId), x.1.2)).lookup ⟨next + i⟩ =
      (l[i]?).map Prod.snd := by
  induction l generalizing next i with
  | nil => rfl
  | cons x rest ih =>
      rw [List.zipIdx_cons, List.map_cons, List.lookup_cons]
      cases i with
      | zero => simp
      | succ i =>
          have hne : ((⟨next + (i + 1)⟩ : SchemaId) == ⟨next⟩) = false := by simp
          rw [hne, List.getElem?_cons_succ, ← ih (next + 1) i, Nat.add_right_comm, Nat.add_assoc]

namespace Restricts

variable {l : List (Schema α × List (List ObjectId))} (h : d.Restricts l)

include h

/-- `tuples?` finds the tuples of a schema under its number. -/
theorem tuples?_eq (i : ℕ) : d.tuples? ⟨i⟩ = (l[i]?).map Prod.snd := by
  have hlookup := lookup_zipIdx l 0 i
  rw [Nat.zero_add] at hlookup
  rw [Domain.tuples?, h.grounding]
  exact hlookup

/-- `instances` of the domain, schema by schema, in the order in which tuples are listed. -/
theorem instances_eq : d.instances = l.flatMap fun x => x.2.map (⟨x.1, ·⟩) := by
  have hinstances : ∀ x ∈ l.zipIdx, d.instancesOf (x.1.1, x.2) = x.1.2.map (⟨x.1.1, ·⟩) := by
    intro x hx
    rw [instancesOf, h.tuples?_eq, List.mem_zipIdx_iff_getElem?.mp hx]
    rfl
  calc d.instances = l.zipIdx.flatMap fun x => d.instancesOf (x.1.1, x.2) := by
        rw [instances, h.schemas, List.zipIdx_map, List.flatMap_map]
        rfl
    _ = l.zipIdx.flatMap fun x => x.1.2.map (⟨x.1.1, ·⟩) := List.flatMap_congr hinstances
    _ = (l.zipIdx.map Prod.fst).flatMap fun x => x.2.map (⟨x.1, ·⟩) := by
        rw [List.flatMap_map]
    _ = l.flatMap fun x => x.2.map (⟨x.1, ·⟩) := by rw [List.zipIdx_map_fst]

/-- `checkGrounding` passes: the grounding map speaks of declared schemas only. -/
theorem checkGrounding_eq_ok : d.checkGrounding = .ok () := by
  refine checkGrounding_eq_ok_iff.mpr fun map hmap e he => ?_
  obtain rfl := Option.some.inj (h.grounding.symm.trans hmap)
  obtain ⟨x, hx, rfl⟩ := List.mem_map.mp he
  rw [h.schemas, List.length_map]
  exact (List.getElem?_eq_some_iff.mp (List.mem_zipIdx_iff_getElem?.mp hx)).1

/-- **Grounding succeeds** when the listed tuples suit their schemas. -/
theorem exists_ground (hd : d.Sound) (hsuits : ∀ x ∈ l, ∀ tuple ∈ x.2,
    x.1.Suits d.declarations tuple) : ∃ g, d.ground = .ok g := by
  have hlisted : d.checkListed d.listed = .ok () := by
    rw [checkListed_eq_ok_iff]
    rintro ⟨s, tuple⟩ hmem
    obtain ⟨i, tuples, hs, htuples, htuple⟩ := mem_listed.mp hmem
    rw [h.tuples?_eq] at htuples
    rw [h.schemas, List.getElem?_map] at hs
    obtain ⟨x, hx, rfl⟩ := Option.map_eq_some_iff.mp hs
    rw [hx] at htuples
    obtain rfl := Option.some.inj htuples
    exact Schema.suits_iff_not_faulty.mp (hsuits x (List.mem_of_getElem? hx) tuple htuple)
  rcases hd.ground_agrees with ⟨-, g, hg, -⟩ | ⟨e, herror, -⟩
  · exact ⟨g, hg⟩
  · exact absurd (hlisted.symm.trans herror) (by simp)

end Restricts

end Domain

end DurativePlanning
