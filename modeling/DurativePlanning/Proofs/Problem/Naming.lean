import DurativePlanning.Domain.Validation
import DurativePlanning.Proofs.Problem.Enumeration
import DurativePlanning.Proofs.Storage.CacheKey
import Mathlib.Data.List.Nodup

/-!
# Names of Ground Actions

An action is named after its schema and its objects, with brackets around the objects and commas
between them. When these signs stand in no name of a schema or an object, the name of an action can
be taken apart again: the schema's name ends at the first bracket, and the objects' names lie
between the commas, however many there are and even where they are empty. An authored domain gives
each name away once, so different actions have different names.

* `applied_inj`: a name that is applied to arguments, taken apart.
* `Universe.Declares`, `Domain.Authored`: what can be authored, one step at a time.
* `Domain.Authored.namesApart`: objects and schemas have names of their own.
* `Domain.nodup_groundNames`: so do ground actions.
-/

namespace DurativePlanning

variable {α : Type}

/-! ### Taking a name apart -/

/-- The signs that names are put together with: those of `applied`, of combinations and of
starts. -/
def separators : List Char := ['(', ')', ',', '|', '@']

/-- A text without any of these signs. -/
def IsPlain (text : String) : Prop := ∀ c ∈ text.toList, c ∉ separators

instance (text : String) : Decidable (IsPlain text) :=
  List.decidableBAll (· ∉ separators) text.toList

/-- A plain text has none of the separators. -/
theorem IsPlain.notMem {text : String} (h : IsPlain text) {c : Char} (hc : c ∈ separators) :
    c ∉ text.toList := fun hmem => h c hmem hc

/-- A list is cut in two at the first place where the member `x` stands. -/
theorem append_cons_inj_of_first {β : Type} {x : β} {before before' after after' : List β}
    (h : x ∉ before) (h' : x ∉ before') (heq : before ++ x :: after = before' ++ x :: after') :
    before = before' ∧ after = after' := by
  have hreverse : after.reverse ++ x :: before.reverse = after'.reverse ++ x :: before'.reverse :=
    by simpa using congrArg List.reverse heq
  obtain ⟨hafter, hbefore⟩ := Storage.append_cons_inj (by simpa using h) (by simpa using h') hreverse
  exact ⟨List.reverse_injective hbefore, List.reverse_injective hafter⟩

/-- `List.intercalate` with a comma and a blank is the one with a comma, where all pieces but the
first begin with a blank. -/
theorem intercalate_comma (first : List Char) (rest : List (List Char)) :
    [',', ' '].intercalate (first :: rest) = [','].intercalate (first :: rest.map (' ' :: ·)) := by
  induction rest generalizing first with
  | nil => simp
  | cons piece rest ih =>
      rw [List.map_cons, List.intercalate_cons_cons, List.intercalate_cons_cons, ih]
      cases rest with
      | nil => simp
      | cons next rest => simp [List.intercalate_cons_cons]

/-- The characters of a name `applied` to some arguments. -/
theorem toList_applied_cons (name first : String) (rest : List String) :
    (applied name (first :: rest)).toList =
      name.toList ++ '(' ::
        ([','].intercalate (first.toList :: rest.map fun arg => ' ' :: arg.toList) ++ [')']) := by
  have hpieces : (", ".intercalate (first :: rest)).toList =
      [','].intercalate (first.toList :: rest.map fun arg => ' ' :: arg.toList) := by
    rw [String.toList_intercalate, List.map_cons]
    change [',', ' '].intercalate (first.toList :: rest.map String.toList) = _
    rw [intercalate_comma, List.map_map]
    rfl
  rw [applied, List.isEmpty_cons, if_neg Bool.false_ne_true]
  simp only [String.toList_append, hpieces]
  simp

/-- `List.splitOn` at the commas gives the arguments back, when none of them has a comma. -/
theorem splitOn_arguments {first : String} {rest : List String}
    (h : ∀ arg ∈ first :: rest, ',' ∉ arg.toList) :
    ([','].intercalate (first.toList :: rest.map fun arg => ' ' :: arg.toList)).splitOn ',' =
      first.toList :: rest.map fun arg => ' ' :: arg.toList := by
  refine List.splitOn_intercalate ',' (fun piece hpiece => ?_) (List.cons_ne_nil _ _)
  rcases List.mem_cons.mp hpiece with rfl | hpiece
  · exact h first List.mem_cons_self
  · obtain ⟨arg, harg, rfl⟩ := List.mem_map.mp hpiece
    simpa using h arg (List.mem_cons_of_mem first harg)

/-- **A name that is applied to arguments can be taken apart**: `applied` is injective where names
have no bracket and arguments no comma. -/
theorem applied_inj {name name' : String} {args args' : List String} (hname : '(' ∉ name.toList)
    (hname' : '(' ∉ name'.toList) (hargs : ∀ arg ∈ args, ',' ∉ arg.toList)
    (hargs' : ∀ arg ∈ args', ',' ∉ arg.toList) (h : applied name args = applied name' args') :
    name = name' ∧ args = args' := by
  have hchars := congrArg String.toList h
  cases args with
  | nil =>
      cases args' with
      | nil => exact ⟨h, rfl⟩
      | cons first' rest' =>
          rw [toList_applied_cons] at hchars
          exact absurd (by rw [show name.toList = _ from hchars]; simp) hname
  | cons first rest =>
      cases args' with
      | nil =>
          rw [toList_applied_cons] at hchars
          exact absurd (by rw [show name'.toList = _ from hchars.symm]; simp) hname'
      | cons first' rest' =>
          rw [toList_applied_cons, toList_applied_cons] at hchars
          obtain ⟨hnames, hbrackets⟩ := append_cons_inj_of_first hname hname' hchars
          have hpieces := congrArg (List.splitOn ',') (List.append_cancel_right hbrackets)
          rw [splitOn_arguments hargs, splitOn_arguments hargs'] at hpieces
          obtain ⟨hfirst, hrest⟩ := List.cons.inj hpieces
          have hinj : Function.Injective fun arg : String => ' ' :: arg.toList :=
            fun arg arg' harg => String.toList_inj.mp (List.cons.inj harg).2
          rw [String.toList_inj.mp hnames, String.toList_inj.mp hfirst, hinj.list_map hrest]
          exact ⟨rfl, rfl⟩

/-- What stands between commas has no signs but theirs and those of the pieces. -/
theorem notMem_intercalate {c : Char} {pieces : List (List Char)} (hc : c ≠ ',')
    (h : ∀ piece ∈ pieces, c ∉ piece) : c ∉ [','].intercalate pieces := by
  induction pieces with
  | nil => simp
  | cons piece rest ih =>
      rw [List.forall_mem_cons] at h
      cases rest with
      | nil => simpa using h.1
      | cons next rest => simpa [List.intercalate_cons_cons, h.1, hc] using ih h.2

/-- A name that is applied to arguments has no signs but theirs, and brackets, commas and blanks. -/
theorem notMem_applied {name : String} {args : List String} {c : Char} (hname : c ∉ name.toList)
    (hargs : ∀ arg ∈ args, c ∉ arg.toList) (hc : c ∉ ['(', ')', ',', ' ']) :
    c ∉ (applied name args).toList := by
  cases args with
  | nil => exact hname
  | cons first rest =>
      rw [List.forall_mem_cons] at hargs
      simp only [List.mem_cons, List.not_mem_nil, or_false, not_or] at hc
      have hpieces :
          c ∉ [','].intercalate (first.toList :: rest.map fun arg => ' ' :: arg.toList) :=
        notMem_intercalate hc.2.2.1 (by simpa [hc.2.2.2] using hargs)
      rw [toList_applied_cons]
      simp [hname, hpieces, hc.1, hc.2.1]

/-! ### Names of ground actions -/

namespace Universe

variable {u : Universe} {o o' : ObjectId}

/-- A declared object has the name of its declaration. -/
theorem objectName_eq (ho : o ∈ u.allObjects) :
    ∃ hi : o.index < (u.objects.toList.map (·.name)).length,
      u.objectName o = (u.objects.toList.map (·.name))[o.index] := by
  have hi : o.index < u.objects.size := mem_allObjects.mp ho
  exact ⟨by simpa using hi, by simp [objectName, object?, Array.getElem?_eq_getElem hi]⟩

/-- Declared objects are told apart by their names when these are different. -/
theorem objectName_inj (h : (u.objects.toList.map (·.name)).Nodup) (ho : o ∈ u.allObjects)
    (ho' : o' ∈ u.allObjects) (hname : u.objectName o = u.objectName o') : o = o' := by
  obtain ⟨hi, hdecl⟩ := objectName_eq ho
  obtain ⟨hi', hdecl'⟩ := objectName_eq ho'
  rw [hdecl, hdecl', h.getElem_inj_iff] at hname
  exact congrArg ObjectId.mk hname

/-- Lists of declared objects are told apart by the names of their members when these are
different. -/
theorem objectNames_inj (h : (u.objects.toList.map (·.name)).Nodup) {l l' : List ObjectId}
    (hl : ∀ o ∈ l, o ∈ u.allObjects) (hl' : ∀ o ∈ l', o ∈ u.allObjects)
    (hnames : l.map u.objectName = l'.map u.objectName) : l = l' := by
  induction l generalizing l' with
  | nil => exact (List.map_eq_nil_iff.mp hnames.symm).symm
  | cons o rest ih =>
      obtain ⟨o', rest', rfl, ho', hrest'⟩ := List.map_eq_cons_iff.mp hnames.symm
      rw [List.forall_mem_cons] at hl hl'
      rw [objectName_inj h hl.1 hl'.1 ho'.symm, ih hl.2 hl'.2 hrest'.symm]

end Universe

/-- The members of a tuple that suits a schema are declared. -/
theorem Schema.Suits.declared {u : Universe} {s : Schema α} {tuple : List ObjectId}
    (h : s.Suits u tuple) : ∀ o ∈ tuple, o ∈ u.allObjects := by
  intro o ho
  obtain ⟨type, -, htype⟩ := List.mem_map.mp (h ▸ List.mem_map_of_mem (f := u.typeOf?) ho)
  exact List.mem_of_mem_filter (Universe.mem_objectsOf.mpr htype.symm)

/-- **Names of their own**: no two objects and no two schemas share one. -/
structure Domain.NamesApart (d : Domain α) : Prop where
  objects : (d.declarations.objects.toList.map (·.name)).Nodup
  schemas : (d.schemas.map (·.name)).Nodup

/-- **Names that can be put together**: the names of objects and schemas are `IsPlain`. -/
structure Domain.NamesPlain (d : Domain α) : Prop where
  objects : ∀ o ∈ d.declarations.objects.toList, IsPlain o.name
  schemas : ∀ s ∈ d.schemas, IsPlain s.name

namespace Domain

variable {d : Domain α} {g : GroundProblem α} {x y : Instance α}

/-- **The actions of a ground problem** are read back through its table as the instances of the
domain, in order. -/
theorem reads_of_ground (h : d.ground = .ok g) :
    List.Forall₂ (GroundAction.Reads g.core.atoms d.declarations) g.actions d.applications := by
  simp only [ground, bind_eq_ok_iff] at h
  obtain ⟨⟨initial, t₁⟩, -, ⟨goals, t₂⟩, -, ⟨actions, t₃⟩, hactions, h⟩ := h
  obtain rfl := Except.ok.inj h
  exact reads_of_groundSchemas hactions List.prefix_rfl

/-- The name of a schema `applied` to the names of a tuple. -/
def nameOf (d : Domain α) (x : Instance α) : String :=
  applied x.schema.name (x.tuple.map d.declarations.objectName)

/-- `applications` are `instances` with the numbers of their schemas. -/
theorem map_snd_applications (d : Domain α) : d.applications.map Prod.snd = d.instances := by
  rw [applications, List.map_flatMap, instances]
  exact List.flatMap_congr fun x _ => by rw [applicationsOf, List.map_map]; exact List.map_id _

/-- The names of the ground actions are `nameOf` the instances, in order. -/
theorem names_of_ground (h : d.ground = .ok g) :
    g.actions.map (·.name) = d.instances.map d.nameOf := by
  have hnames : (d.applications.map fun x => d.nameOf x.2) = g.actions.map (·.name) :=
    map_eq_map_of_forall₂ (reads_of_ground h) fun _ _ hreads => hreads.name.symm
  rw [← hnames, ← map_snd_applications, List.map_map]
  rfl

/-- **An allowed instance**: a schema of the domain and a tuple that suits it. -/
def Allows (d : Domain α) (x : Instance α) : Prop :=
  x.schema ∈ d.schemas ∧ x.schema.Suits d.declarations x.tuple

/-- The names of the objects of an allowed instance are plain. -/
theorem NamesPlain.argument (h : d.NamesPlain) (hx : d.Allows x) :
    ∀ arg ∈ x.tuple.map d.declarations.objectName, IsPlain arg := by
  intro arg harg
  obtain ⟨o, ho, rfl⟩ := List.mem_map.mp harg
  obtain ⟨hi, hname⟩ := Universe.objectName_eq (hx.2.declared o ho)
  obtain ⟨decl, hdecl, hplain⟩ := List.mem_map.mp (List.getElem_mem hi)
  rw [hname, ← hplain]
  exact h.objects decl hdecl

/-- **The name of an instance tells its schema's name and its tuple**, by `applied_inj` and the
names of the objects. -/
theorem nameOf_inj (hapart : d.NamesApart) (hplain : d.NamesPlain) (hx : d.Allows x)
    (hy : d.Allows y) (h : d.nameOf x = d.nameOf y) :
    x.schema.name = y.schema.name ∧ x.tuple = y.tuple := by
  have hbracket : ∀ {x : Instance α}, d.Allows x → '(' ∉ x.schema.name.toList :=
    fun hx => (hplain.schemas _ hx.1).notMem (by decide)
  have hcomma : ∀ {x : Instance α}, d.Allows x →
      ∀ arg ∈ x.tuple.map d.declarations.objectName, ',' ∉ arg.toList :=
    fun hx arg harg => (hplain.argument hx arg harg).notMem (by decide)
  obtain ⟨hname, hargs⟩ := applied_inj (hbracket hx) (hbracket hy) (hcomma hx) (hcomma hy) h
  exact ⟨hname, Universe.objectNames_inj hapart.objects hx.2.declared hy.2.declared hargs⟩

/-- The instances of a schema have this schema. -/
theorem schema_of_mem_instancesOf {s : Schema α × ℕ} (hx : x ∈ d.instancesOf s) :
    x.schema = s.1 := by
  obtain ⟨tuple, -, rfl⟩ := List.mem_map.mp hx
  rfl

/-- `instancesOf` a schema have tuples of their own, when no list of tuples repeats one. -/
theorem nodup_tuples_instancesOf (d : Domain α) {x : Schema α × ℕ}
    (htuples : ∀ tuples, d.tuples? ⟨x.2⟩ = some tuples → tuples.Nodup) :
    ((d.instancesOf x).map (·.tuple)).Nodup := by
  rw [instancesOf, List.map_map]
  refine (List.map_id _).symm ▸ ?_
  cases hlisted : d.tuples? ⟨x.2⟩ with
  | some tuples => exact htuples tuples hlisted
  | none => exact (d.declarations.enumerates_tuplesOf _).nodup

/-- **Ground actions have names of their own**, when no list of tuples repeats one: `nameOf` is
injective on the allowed instances. -/
theorem nodup_groundNames (hapart : d.NamesApart) (hplain : d.NamesPlain)
    (htuples : ∀ id tuples, d.tuples? id = some tuples → tuples.Nodup) (h : d.ground = .ok g) :
    (g.actions.map (·.name)).Nodup := by
  have hallows : ∀ s ∈ d.schemas.zipIdx, ∀ x ∈ d.instancesOf s, d.Allows x := fun s hs x hx =>
    (embodies_of_ground h).suits x (List.mem_flatMap.mpr ⟨s, hs, hx⟩)
  have hschemas : d.schemas.zipIdx.Pairwise fun s s' => s.1.name ≠ s'.1.name := by
    have hnames := hapart.schemas
    rw [← List.zipIdx_map_fst 0 d.schemas, List.map_map] at hnames
    exact List.pairwise_map.mp hnames
  rw [names_of_ground h, List.Nodup, List.pairwise_map, instances, List.pairwise_flatMap]
  constructor
  · intro s hs
    have htuple : (d.instancesOf s).Pairwise fun x y => x.tuple ≠ y.tuple :=
      List.pairwise_map.mp (d.nodup_tuples_instancesOf fun tuples => htuples _ tuples)
    exact htuple.imp_of_mem fun hx hy hne hname =>
      hne (nameOf_inj hapart hplain (hallows s hs _ hx) (hallows s hs _ hy) hname).2
  · refine hschemas.imp_of_mem fun {s s'} hs hs' hne x hx y hy hname => hne ?_
    have hname := (nameOf_inj hapart hplain (hallows s hs x hx) (hallows s' hs' y hy) hname).1
    rwa [schema_of_mem_instancesOf hx, schema_of_mem_instancesOf hy] at hname

end Domain

/-! ### Authoring -/

/-- **Asking for one declaration** of a type, an object or a fluent, and what the universe is
`after` that, whether it was accepted or refused. -/
inductive Universe.Declares (u : Universe) : Universe → Prop
  | type (name : String) : Declares u (u.declareType name).after
  | object (name : String) (type : TypeId) : Declares u (u.declareObject name type).after
  | fluent (name : String) (params : List TypeId) (default : Bool) :
      Declares u (u.declareFluent name params default).after

/-- **What can be authored**, one step after the other, beginning with `Domain.named`; each step is
one that succeeded. -/
inductive Domain.Authored : Domain α → Prop
  | named (name : String) (kind : DomainKind) : Authored (.named name kind)
  | declare {d : Domain α} {u : Universe} :
      Authored d → d.declarations.Declares u → Authored { d with declarations := u }
  | addSchema {d d' : Domain α} {s : Schema α} {id : SchemaId} :
      Authored d → d.addSchema s = .ok (id, d') → Authored d'
  | addInitial {d : Domain α} (f : GroundFluent) (value : Bool) :
      Authored d → Authored (d.addInitial f value)
  | addGoal {d : Domain α} (f : GroundFluent) (value : Bool) :
      Authored d → Authored (d.addGoal f value)
  | addGrounding {d : Domain α} (id : SchemaId) (tuples : List (List ObjectId)) :
      Authored d → Authored (d.addGrounding id tuples)
  | withDeadline {d : Domain α} (deadline : ℕ) : Authored d → Authored (d.withDeadline deadline)
  | sized {d : Domain α} (sizes : List ℕ) : Authored d → Authored { d with sizeParams := sizes }

/-- A new name at the end of a list of different names. -/
theorem nodup_names_append {β : Type} {nameOf : β → String} {l : List β} {x : β}
    (hl : (l.map nameOf).Nodup) (hnew : ¬(l.any fun y => nameOf y == nameOf x) = true) :
    ((l ++ [x]).map nameOf).Nodup := by
  rw [List.map_append, List.map_singleton, List.nodup_append]
  refine ⟨hl, List.nodup_singleton _, ?_⟩
  rintro _ hname _ hlast rfl
  obtain ⟨y, hy, hsame⟩ := List.mem_map.mp hname
  have heq : nameOf y = nameOf x := hsame.trans (List.mem_singleton.mp hlast)
  exact hnew (List.any_eq_true.mpr ⟨y, hy, beq_iff_eq.mpr heq⟩)

/-- A declaration gives no object the name of another one: `declareObject` puts a new name at the end,
and the other two leave the objects alone. -/
theorem Universe.Declares.nodup_objects {u u' : Universe} (h : u.Declares u')
    (hu : (u.objects.toList.map (·.name)).Nodup) : (u'.objects.toList.map (·.name)).Nodup := by
  cases h with
  | type name =>
      rw [declareType]
      split
      · exact hu
      · exact hu
  | object name type =>
      rw [declareObject]
      split
      · exact hu
      · split
        · exact hu
        · next hnew =>
          rw [← Array.any_toList] at hnew
          rw [Array.toList_push]
          exact nodup_names_append hu hnew
  | fluent name params default =>
      rw [declareFluent]
      split
      · exact hu
      · split
        · exact hu
        · exact hu

/-- **Authoring gives each name away once**, for objects and for schemas: `Authored` implies
`NamesApart`. -/
theorem Domain.Authored.namesApart {d : Domain α} (h : d.Authored) : d.NamesApart := by
  induction h with
  | named name kind => exact ⟨List.nodup_nil, List.nodup_nil⟩
  | declare _ hdeclares ih => exact ⟨hdeclares.nodup_objects ih.objects, ih.schemas⟩
  | @addSchema d d' s id _ hadd ih =>
      rw [Domain.addSchema] at hadd
      split at hadd
      · exact absurd hadd (by simp)
      · next hnew =>
        obtain ⟨-, rfl⟩ := Prod.mk.inj (Except.ok.inj hadd)
        exact ⟨ih.objects, nodup_names_append ih.schemas hnew⟩
  | addInitial f value _ ih | addGoal f value _ ih => exact ⟨ih.objects, ih.schemas⟩
  | addGrounding id tuples _ ih => exact ⟨ih.objects, ih.schemas⟩
  | withDeadline deadline _ ih => exact ⟨ih.objects, ih.schemas⟩
  | sized sizes _ ih => exact ⟨ih.objects, ih.schemas⟩

end DurativePlanning
