import DurativePlanning.Proofs.Problem.Naming

/-!
# Declarations in Any Order

A universe is authored by asking for declarations, one after the other, and some of them are
refused. Its three tables refer to each other by position, so everything that is built on a universe
relies on two facts: a name stands only once in its table, and every type that is used is declared.
Both hold of the empty universe, and no declaration breaks them, accepted or not: a declaration is
only put at the end of its table, after both checks have been passed.

* `Universe.declare_eq`: what a declaration does, for all three kinds at once, and that a refused
  one does nothing.
* `Universe.list_attempt`, `Universe.lookUp_of_declare`: tables only grow, so a number that was given
  out keeps its declaration.
* `Universe.Consistent`: the two facts, kept by every declaration.
* `Universe.Consistent.find_eq_ok_iff`: looking up by name and by number are inverse to each other.
* `Universe.Consistent.perm_objectsOf`: the objects, sorted by type.
* `Universe.universe_after_declarations`: all of it, after any sequence of declarations.
-/

namespace DurativePlanning

namespace Universe

/-! ### Three kinds of declarations -/

/-- The three **tables** of a universe. -/
inductive Table where
  | types
  | objects
  | fluents
  deriving DecidableEq

/-- What the names in a table are names of. -/
def Table.bearer : Table → Declared
  | types => .type
  | objects => .object
  | fluents => .fluent

/-- A **declaration** that a universe is asked for. -/
inductive Declaration where
  | type (name : String)
  | object (name : String) (type : TypeId)
  | fluent (name : String) (params : List TypeId) (default : Bool)
  deriving DecidableEq

namespace Declaration

/-- The table that a declaration belongs to. -/
def table : Declaration → Table
  | type _ => .types
  | object _ _ => .objects
  | fluent _ _ _ => .fluents

/-- The name that a declaration gives away in its table. -/
def name : Declaration → String
  | type own => own
  | object own _ => own
  | fluent own _ _ => own

/-- The types that a declaration uses, in the order in which they are looked up. -/
def uses : Declaration → List TypeId
  | type _ => []
  | object _ used => [used]
  | fluent _ params _ => params

end Declaration

/-- An answer with the bare number of an identifier. -/
def Answer.numbered {β : Type} (index : β → ℕ) (answer : Answer β) : Answer ℕ :=
  ⟨index <$> answer.result, answer.after⟩

/-- Asks for a declaration of any kind. The answer is that of `declareType`, `declareObject` or
`declareFluent`, with the bare number. -/
def declare (u : Universe) : Declaration → Answer ℕ
  | .type name => (u.declareType name).numbered TypeId.index
  | .object name type => (u.declareObject name type).numbered ObjectId.index
  | .fluent name params default => (u.declareFluent name params default).numbered FluentId.index

/-- The declaration with a number. -/
def lookUp (u : Universe) : Table → ℕ → Option Declaration
  | .types, n => (u.type? ⟨n⟩).map fun decl => .type decl.name
  | .objects, n => (u.object? ⟨n⟩).map fun decl => .object decl.name decl.type
  | .fluents, n => (u.fluent? ⟨n⟩).map fun decl => .fluent decl.name decl.params decl.default

/-- The number of the declaration with a name. -/
def find (u : Universe) : Table → String → Except ModelError ℕ
  | .types, name => TypeId.index <$> u.typeId name
  | .objects, name => ObjectId.index <$> u.objectId name
  | .fluents, name => FluentId.index <$> u.fluentId name

/-- The declarations of a table in order. -/
def list (u : Universe) : Table → List Declaration
  | .types => u.types.toList.map fun decl => .type decl.name
  | .objects => u.objects.toList.map fun decl => .object decl.name decl.type
  | .fluents => u.fluents.toList.map fun decl => .fluent decl.name decl.params decl.default

/-- The names in a table. -/
def names (u : Universe) (table : Table) : List String := (u.list table).map Declaration.name

/-- A universe with one declaration more, pushed to the end of its table. -/
def extend (u : Universe) : Declaration → Universe
  | .type name => { u with types := u.types.push ⟨name⟩ }
  | .object name type => { u with objects := u.objects.push ⟨name, type⟩ }
  | .fluent name params default => { u with fluents := u.fluents.push ⟨name, params, default⟩ }

variable {u : Universe} {table : Table} {d : Declaration} {ds : List Declaration} {n : ℕ}
  {name : String}

/-- `lookUp` is the entry of `list` at the number. -/
theorem lookUp_eq_getElem? (u : Universe) (table : Table) (n : ℕ) :
    u.lookUp table n = (u.list table)[n]? := by
  cases table <;> simp [lookUp, list, type?, object?, fluent?]

/-- `extend` puts the declaration at the end of its own table, and leaves the other two as they
are. -/
theorem list_extend (u : Universe) (d : Declaration) (table : Table) :
    (u.extend d).list table =
      if d.table = table then u.list table ++ [d] else u.list table := by
  cases d <;> cases table <;> simp [extend, list, Declaration.table]

/-! ### What a declaration does -/

/-- `Array.any` looks for a name by comparing it with all the names of its table. -/
theorem any_name_iff {β : Type} (decls : Array β) (toDeclaration : β → Declaration) :
    decls.any (fun decl => (toDeclaration decl).name == name) = true ↔
      name ∈ (decls.toList.map toDeclaration).map Declaration.name := by
  simp [← Array.any_toList]

/-- **What a declaration does**: it is refused when a type that it uses is not declared, and then
when its name is taken, and both leave `u` as it is; otherwise it gets the next number of its table
and the universe is `u.extend d`. -/
theorem declare_eq (u : Universe) (d : Declaration) :
    u.declare d = match d.uses.find? fun type => (u.type? type).isNone with
      | some missing => ⟨.error (.unknownType (.numbered missing.index)), u⟩
      | none =>
        if d.name ∈ u.names d.table then ⟨.error (.duplicateName d.table.bearer d.name), u⟩
        else ⟨.ok (u.list d.table).length, u.extend d⟩ := by
  cases d with
  | type name =>
      have htaken : u.types.any (·.name == name) = true ↔ name ∈ u.names .types :=
        any_name_iff u.types fun decl => .type decl.name
      have hnext : (u.list .types).length = u.types.size := by simp [list]
      rw [declare, declareType]
      simp only [htaken, hnext, Declaration.uses, Declaration.name, Declaration.table,
        List.find?_nil]
      split
      · rfl
      · rfl
  | object name type =>
      have htaken : u.objects.any (·.name == name) = true ↔ name ∈ u.names .objects :=
        any_name_iff u.objects fun decl => .object decl.name decl.type
      have hnext : (u.list .objects).length = u.objects.size := by simp [list]
      rw [declare, declareObject]
      simp only [htaken, hnext, Declaration.uses, Declaration.name, Declaration.table,
        List.find?_singleton]
      split
      · rfl
      · split
        · rfl
        · rfl
  | fluent name params default =>
      have htaken : u.fluents.any (·.name == name) = true ↔ name ∈ u.names .fluents :=
        any_name_iff u.fluents fun decl => .fluent decl.name decl.params decl.default
      have hnext : (u.list .fluents).length = u.fluents.size := by simp [list]
      rw [declare, declareFluent]
      simp only [htaken, hnext, Declaration.uses, Declaration.name, Declaration.table]
      cases params.find? fun type => (u.type? type).isNone with
      | some missing => rfl
      | none =>
          dsimp only
          split
          · rfl
          · rfl

/-- A declaration is **admitted** when `type?` finds the types that it uses and its name is new in
its table. -/
def Admits (u : Universe) (d : Declaration) : Prop :=
  (∀ type ∈ d.uses, u.type? type ≠ none) ∧ d.name ∉ u.names d.table

/-- **A declaration is accepted exactly when it is admitted**: `declare` then answers with the next
number and `extend`. Otherwise it answers with an error, and the universe stays what it was. -/
theorem declare_cases (u : Universe) (d : Declaration) :
    u.Admits d ∧ u.declare d = ⟨.ok (u.list d.table).length, u.extend d⟩ ∨
      ¬u.Admits d ∧ ∃ e, u.declare d = ⟨.error e, u⟩ := by
  rw [declare_eq]
  cases hmissing : d.uses.find? fun type => (u.type? type).isNone with
  | some missing =>
      have hisNone := List.find?_some hmissing
      have hnone : u.type? missing = none := Option.isNone_iff_eq_none.mp hisNone
      exact Or.inr ⟨fun h => h.1 missing (List.mem_of_find?_eq_some hmissing) hnone, _, rfl⟩
  | none =>
      have hdeclared : ∀ type ∈ d.uses, u.type? type ≠ none := fun type htype hnone =>
        List.find?_eq_none.mp hmissing type htype (Option.isNone_iff_eq_none.mpr hnone)
      by_cases htaken : d.name ∈ u.names d.table
      · exact Or.inr ⟨fun h => h.2 htaken, _, if_pos htaken⟩
      · exact Or.inl ⟨⟨hdeclared, htaken⟩, if_neg htaken⟩

/-- The result of an accepted declaration is the next number of its table. -/
theorem result_declare_eq_ok_iff : (u.declare d).result = .ok n ↔
    u.Admits d ∧ n = (u.list d.table).length := by
  obtain ⟨hadmits, hok⟩ | ⟨hnot, e, herror⟩ := declare_cases u d
  · simp [hok, hadmits, eq_comm]
  · simp [herror, hnot]

/-- `declare` leaves `extend` of the universe when the declaration is admitted. -/
theorem after_declare_of_admits (h : u.Admits d) : (u.declare d).after = u.extend d := by
  obtain ⟨-, hok⟩ | ⟨hnot, -⟩ := declare_cases u d
  · rw [hok]
  · exact absurd h hnot

/-- The result is an error exactly when a type that the declaration uses is not declared or its name
is taken. -/
theorem result_declare_eq_error_iff : (∃ e, (u.declare d).result = .error e) ↔
    (∃ type ∈ d.uses, u.type? type = none) ∨ d.name ∈ u.names d.table := by
  have hnot : ¬u.Admits d ↔ (∃ type ∈ d.uses, u.type? type = none) ∨ d.name ∈ u.names d.table := by
    rw [Admits, not_and_or, not_not]
    push Not
    rfl
  rw [← hnot]
  obtain ⟨hadmits, hok⟩ | ⟨hrefused, herror⟩ := declare_cases u d
  · simp [hok, hadmits]
  · obtain ⟨e, herror⟩ := herror
    exact iff_of_true ⟨e, congrArg Answer.result herror⟩ hrefused

/-- **A refused declaration changes nothing**: what `declare` leaves beside an error is the universe
that it was given. -/
theorem after_declare_of_refused (h : ∃ e, (u.declare d).result = .error e) :
    (u.declare d).after = u := by
  obtain ⟨-, hok⟩ | ⟨-, e, herror⟩ := declare_cases u d
  · rw [hok] at h
    exact absurd h (by simp)
  · rw [herror]

/-! ### Sequences of declarations -/

/-- The universe that `declare` leaves, whether the declaration was accepted or refused. -/
def attempt (u : Universe) (d : Declaration) : Universe := (u.declare d).after

/-- The universe after some declarations were asked for, one after the other, beginning with
`empty`. -/
def afterAll (ds : List Declaration) : Universe := ds.foldl attempt empty

/-- **A table only grows**, and only by what is declared: `attempt` leaves `list` as it is or puts
an admitted declaration at its end. -/
theorem list_attempt (u : Universe) (d : Declaration) (table : Table) :
    (u.attempt d).list table = u.list table ∨
      u.Admits d ∧ d.table = table ∧ (u.attempt d).list table = u.list table ++ [d] := by
  rw [attempt]
  obtain ⟨hadmits, hok⟩ | ⟨-, e, herror⟩ := declare_cases u d
  · rw [hok, list_extend]
    by_cases htable : d.table = table
    · exact Or.inr ⟨hadmits, htable, if_pos htable⟩
    · exact Or.inl (if_neg htable)
  · exact Or.inl (by rw [herror])

/-- `attempt` only extends a table. -/
theorem prefix_attempt (u : Universe) (d : Declaration) (table : Table) :
    u.list table <+: (u.attempt d).list table := by
  obtain hsame | ⟨-, -, hnew⟩ := u.list_attempt d table
  · exact hsame ▸ List.prefix_rfl
  · exact hnew ▸ List.prefix_append _ _

/-- Any number of attempts only extend a table. -/
theorem prefix_foldl_attempt (u : Universe) (ds : List Declaration) (table : Table) :
    u.list table <+: (ds.foldl attempt u).list table := by
  induction ds generalizing u with
  | nil => exact List.prefix_rfl
  | cons d rest ih => exact (u.prefix_attempt d table).trans (ih (u.attempt d))

/-- **A number that was given out keeps its declaration**, whatever is asked for afterwards: `list`
of the table only grows. -/
theorem lookUp_of_declare {after : List Declaration} (h : (u.declare d).result = .ok n) :
    (after.foldl attempt (u.attempt d)).lookUp d.table n = some d := by
  obtain ⟨hadmits, rfl⟩ := result_declare_eq_ok_iff.mp h
  rw [attempt, after_declare_of_admits hadmits]
  have hlast : ((u.extend d).list d.table)[(u.list d.table).length]? = some d := by
    rw [list_extend, if_pos rfl, List.getElem?_concat_length]
  obtain ⟨rest, hrest⟩ := (u.extend d).prefix_foldl_attempt after d.table
  rw [lookUp_eq_getElem?, ← hrest,
    List.getElem?_append_left (List.getElem?_eq_some_iff.mp hlast).1]
  exact hlast

/-! ### Consistency -/

/-- A universe is **consistent** when no table has a name twice and every type that is used is
declared. -/
structure Consistent (u : Universe) : Prop where
  nodup_names : ∀ table, (u.names table).Nodup
  declared : ∀ table, ∀ d ∈ u.list table, ∀ type ∈ d.uses, u.type? type ≠ none

theorem consistent_empty : empty.Consistent where
  nodup_names table := by cases table <;> exact List.nodup_nil
  declared table := by cases table <;> simp [list, empty]

/-- A type is declared when its number is below the length of the table. -/
theorem type?_ne_none_iff {type : TypeId} :
    u.type? type ≠ none ↔ type.index < (u.list .types).length := by
  simp [type?, list]

/-- The first place of a name among the names of a table is that of the first declaration with this
name. -/
theorem findIdx?_names {β : Type} (decls : Array β) (toDeclaration : β → Declaration) :
    ((decls.toList.map toDeclaration).map Declaration.name).findIdx? (· == name) =
      decls.findIdx? fun decl => (toDeclaration decl).name == name := by
  rw [List.map_map, List.findIdx?_map]
  exact (List.findIdx?_toArray ..).symm

/-- `find` gives the first place of the name in the table. -/
theorem find_eq_ok_iff_findIdx? :
    u.find table name = .ok n ↔ (u.names table).findIdx? (· == name) = some n := by
  cases table with
  | types =>
      have hfirst : (u.names .types).findIdx? (· == name) = u.types.findIdx? (·.name == name) :=
        findIdx?_names u.types fun decl => .type decl.name
      rw [hfirst, find, typeId]
      cases u.types.findIdx? (·.name == name) <;> simp
  | objects =>
      have hfirst : (u.names .objects).findIdx? (· == name) =
          u.objects.findIdx? (·.name == name) :=
        findIdx?_names u.objects fun decl => .object decl.name decl.type
      rw [hfirst, find, objectId]
      cases u.objects.findIdx? (·.name == name) <;> simp
  | fluents =>
      have hfirst : (u.names .fluents).findIdx? (· == name) =
          u.fluents.findIdx? (·.name == name) :=
        findIdx?_names u.fluents fun decl => .fluent decl.name decl.params decl.default
      rw [hfirst, find, fluentId]
      cases u.fluents.findIdx? (·.name == name) <;> simp

namespace Consistent

/-- **Every declaration keeps a universe `Consistent`**, accepted or not. -/
theorem attempt (h : u.Consistent) (d : Declaration) : (u.attempt d).Consistent where
  nodup_names table := by
    rw [names]
    obtain hsame | ⟨hadmits, rfl, hnew⟩ := u.list_attempt d table
    · rw [hsame]
      exact h.nodup_names table
    · rw [hnew, List.map_append, List.map_singleton]
      exact (h.nodup_names d.table).append (List.nodup_singleton _)
        (List.disjoint_singleton.mpr hadmits.2)
  declared table e he type htype := by
    have hstays : u.type? type ≠ none → (u.attempt d).type? type ≠ none := fun hdeclared =>
      type?_ne_none_iff.mpr ((type?_ne_none_iff.mp hdeclared).trans_le
        (u.prefix_attempt d .types).length_le)
    refine hstays ?_
    obtain hsame | ⟨hadmits, rfl, hnew⟩ := u.list_attempt d table
    · exact h.declared table e (hsame ▸ he) type htype
    · rcases List.mem_append.mp (hnew ▸ he) with he | he
      · exact h.declared d.table e he type htype
      · obtain rfl := List.mem_singleton.mp he
        exact hadmits.1 type htype

/-- Any number of attempts keep a universe consistent, by induction on the declarations. -/
theorem foldl_attempt (h : u.Consistent) (ds : List Declaration) :
    (ds.foldl Universe.attempt u).Consistent := by
  induction ds generalizing u with
  | nil => exact h
  | cons d rest ih => exact ih (h.attempt d)

/-- **Looking up by name and by number are inverse to each other**: `find` gives the number whose
declaration has the name. -/
theorem find_eq_ok_iff (h : u.Consistent) :
    u.find table name = .ok n ↔ ∃ d, u.lookUp table n = some d ∧ d.name = name := by
  have hnames : (∃ d, u.lookUp table n = some d ∧ d.name = name) ↔
      (u.names table)[n]? = some name := by
    rw [lookUp_eq_getElem?, names, List.getElem?_map, Option.map_eq_some_iff]
  rw [find_eq_ok_iff_findIdx?, hnames, List.findIdx?_eq_some_iff_getElem]
  constructor
  · rintro ⟨hn, hfound, -⟩
    rw [List.getElem?_eq_getElem hn, eq_of_beq hfound]
  · intro hnamed
    obtain ⟨hn, hname⟩ := List.getElem?_eq_some_iff.mp hnamed
    refine ⟨hn, beq_iff_eq.mpr hname, fun j hj hsame => ?_⟩
    -- a name stands only once in its table
    have heq : (u.names table)[j] = (u.names table)[n] := (eq_of_beq hsame).trans hname.symm
    exact absurd ((h.nodup_names table).getElem_inj_iff.mp heq) (Nat.ne_of_lt hj)

/-- Every object has a type that is declared: `typeOf?` gives a number below the size of the table
of types. -/
theorem exists_typeOf? (h : u.Consistent) {o : ObjectId} (ho : o ∈ u.allObjects) :
    ∃ i < u.types.size, u.typeOf? o = some ⟨i⟩ := by
  have hi : o.index < u.objects.size := mem_allObjects.mp ho
  have hlisted : Declaration.object u.objects[o.index].name u.objects[o.index].type ∈
      u.list .objects := List.mem_map.mpr ⟨_, Array.getElem_mem_toList hi, rfl⟩
  have hdeclared :=
    h.declared .objects _ hlisted u.objects[o.index].type (List.mem_singleton_self _)
  refine ⟨u.objects[o.index].type.index, ?_, ?_⟩
  · simpa [list] using type?_ne_none_iff.mp hdeclared
  · exact typeOf?_eq_some_iff.mpr ⟨_, Array.getElem?_eq_getElem hi, rfl⟩

/-- **The objects, sorted by type**: `objectsOf` all declared types taken together is a permutation
of `allObjects`. -/
theorem perm_objectsOf (h : u.Consistent) :
    ((List.range u.types.size).flatMap fun i => u.objectsOf ⟨i⟩).Perm u.allObjects := by
  have hall : u.allObjects.Nodup := List.nodup_range.map fun _ _ => ObjectId.mk.inj
  refine (List.perm_ext_iff_of_nodup ?_ hall).mpr fun o => ?_
  · refine List.nodup_flatMap.mpr ⟨fun i _ => hall.filter _, List.nodup_range.imp ?_⟩
    intro i j hne o hi hj
    have htypes := (mem_objectsOf.mp hi).symm.trans (mem_objectsOf.mp hj)
    exact hne (TypeId.mk.inj (Option.some.inj htypes))
  · simp only [List.mem_flatMap, List.mem_range, mem_objectsOf]
    constructor
    · rintro ⟨i, -, htype⟩
      exact List.mem_of_mem_filter (mem_objectsOf.mpr htype)
    · exact h.exists_typeOf?

end Consistent

/-- **A universe after any sequence of declarations**, some accepted and some refused, as long as no
table outgrows the numbers of thirty-two bits. No table has a name twice, and all types that are
used are declared. A further declaration is refused exactly when it uses a type that is not declared
or when its name is taken, and it then changes nothing. A number that was once given out is not cut,
and denotes the same declaration ever after. Looking up by name and by number are inverse to each
other. The objects of all declared types taken together are all objects, each one once, and for each
type they are listed as they were declared. -/
theorem universe_after_declarations (ds : List Declaration)
    (hcount : ∀ table, ((afterAll ds).list table).length ≤ UInt32.size) :
    (∀ table, ((afterAll ds).names table).Nodup) ∧
    (∀ table, ∀ d ∈ (afterAll ds).list table, ∀ type ∈ d.uses, (afterAll ds).type? type ≠ none) ∧
    (∀ d, ((∃ e, ((afterAll ds).declare d).result = .error e) ↔
      (∃ type ∈ d.uses, (afterAll ds).type? type = none) ∨ d.name ∈ (afterAll ds).names d.table) ∧
      ((∃ e, ((afterAll ds).declare d).result = .error e) →
        ((afterAll ds).declare d).after = afterAll ds)) ∧
    (∀ before d after n, ds = before ++ d :: after →
      ((afterAll before).declare d).result = .ok n →
        word32 n = n ∧ (afterAll ds).lookUp d.table n = some d) ∧
    (∀ table name n, (afterAll ds).find table name = .ok n ↔
      ∃ d, (afterAll ds).lookUp table n = some d ∧ d.name = name) ∧
    ((List.range (afterAll ds).types.size).flatMap fun i => (afterAll ds).objectsOf ⟨i⟩).Perm
      (afterAll ds).allObjects ∧
    ∀ type, ((afterAll ds).objectsOf type).Pairwise fun a b => a.index < b.index := by
  have hconsistent : (afterAll ds).Consistent := consistent_empty.foldl_attempt ds
  refine ⟨hconsistent.nodup_names, hconsistent.declared,
    fun d => ⟨result_declare_eq_error_iff, after_declare_of_refused⟩, ?_,
    fun table name n => hconsistent.find_eq_ok_iff, hconsistent.perm_objectsOf,
    (afterAll ds).pairwise_objectsOf⟩
  rintro before d after n rfl hok
  have hfound : (afterAll (before ++ d :: after)).lookUp d.table n = some d := by
    rw [afterAll, List.foldl_append, List.foldl_cons]
    exact lookUp_of_declare hok
  have hlt := (List.getElem?_eq_some_iff.mp (lookUp_eq_getElem? .. ▸ hfound)).1
  exact ⟨word32_of_lt (hlt.trans_le (hcount d.table)), hfound⟩

/-- Declarations for a toolbox. A type is declared twice, and an object before its type. -/
def toolbox : List Declaration :=
  [.type "Tool", .object "hammer" ⟨0⟩, .type "Tool", .object "nail" ⟨1⟩, .type "Part",
    .object "nail" ⟨1⟩]

/-- Four of the declarations are accepted: the second `Tool` and the first `nail` are refused. -/
theorem afterAll_toolbox : afterAll toolbox =
    ⟨#[⟨"Tool"⟩, ⟨"Part"⟩], #[⟨"hammer", ⟨0⟩⟩, ⟨"nail", ⟨1⟩⟩], #[]⟩ := by
  decide +kernel

/-- Four of the six declarations are accepted. The nail is the second object, under its number and
under its name, and it cannot be declared once more. -/
theorem universe_after_declarations_toolbox :
    (∀ table, ((afterAll toolbox).list table).length ≤ UInt32.size) ∧
    (∃ e, ((afterAll toolbox).declare (.object "nail" ⟨0⟩)).result = .error e) ∧
    ((afterAll toolbox).declare (.object "nail" ⟨0⟩)).after = afterAll toolbox ∧
    (afterAll toolbox).lookUp .objects 1 = some (.object "nail" ⟨1⟩) ∧
    (afterAll toolbox).find .objects "nail" = .ok 1 ∧
    ([0, 1].flatMap fun i => (afterAll toolbox).objectsOf ⟨i⟩).Perm
      (afterAll toolbox).allObjects := by
  have hcount : ∀ table, ((afterAll toolbox).list table).length ≤ UInt32.size := by
    rw [afterAll_toolbox]
    rintro (_ | _ | _) <;> decide
  obtain ⟨-, -, hrefused, hkept, hfound, hobjects, -⟩ := universe_after_declarations toolbox hcount
  have hbefore : afterAll (toolbox.take 5) = ⟨#[⟨"Tool"⟩, ⟨"Part"⟩], #[⟨"hammer", ⟨0⟩⟩], #[]⟩ := by
    decide +kernel
  have hlast : ((afterAll (toolbox.take 5)).declare (.object "nail" ⟨1⟩)).result = .ok 1 := by
    rw [hbefore]
    exact result_declare_eq_ok_iff.mpr ⟨⟨by decide, by decide⟩, rfl⟩
  have hnail := (hkept (toolbox.take 5) _ [] 1 rfl hlast).2
  have htaken : "nail" ∈ (afterAll toolbox).names .objects := by
    rw [afterAll_toolbox]
    decide
  have htypes : (afterAll toolbox).types.size = 2 := by rw [afterAll_toolbox]; rfl
  rw [htypes] at hobjects
  have hagain := (hrefused (.object "nail" ⟨0⟩)).1.mpr (Or.inr htaken)
  exact ⟨hcount, hagain, (hrefused _).2 hagain, hnail, (hfound _ _ _).mpr ⟨_, hnail, rfl⟩,
    hobjects⟩

end Universe

end DurativePlanning
