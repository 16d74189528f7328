import DurativePlanning.Problem.Combination
import DurativePlanning.Proofs.Exact
import DurativePlanning.Proofs.Problem.Converted
import DurativePlanning.Proofs.Problem.Ground
import DurativePlanning.Proofs.Problem.Replacement

/-!
# Compiling With Another Law

A law is carried along by compilation and read nowhere: atoms are numbered by what is mentioned
outside of laws, and actions are split and combined by names, durations and resources. So when a law
of a schema is replaced, the compiled problems are the same but for that law, in the actions that
stem from the schema.

* `GroundAction.withLaw`, `ConvertedAction.withLaw`: an action with another law for one group.
* `GroundProblem.withLaw`, `ConvertedProblem.withLaw`, `CombinationProblem.withLaw`: a problem with
  another law in some of its actions.
* `Domain.ground_authoredWith`, `GroundProblem.convert_withLaw`, `ConvertedProblem.combine_withLaw`:
  each stage of compilation commutes with that.
* `Domain.compile_withLaw`: all stages together.
-/

namespace DurativePlanning

variable {α : Type}

/-! ### Problems with another law -/

/-- An action with another law for one of its groups. -/
def GroundAction.withLaw (a : GroundAction α) (group : ℕ) (law : Law α) : GroundAction α :=
  { a with groups := a.groups.modify group fun g => { g with law } }

/-- An action with another law for one of its groups, if it stems from a given schema. -/
def GroundAction.relaw (a : GroundAction α) (id : SchemaId) (group : ℕ) (law : Law α) :
    GroundAction α :=
  if a.schema = id then a.withLaw group law else a

/-- An event with another law for one of its groups. -/
def Event.withLaw (e : Event α) (group : ℕ) (law : Law α) : Event α :=
  { e with groups := e.groups.modify group fun g => { g with law } }

/-- An action with another law for one of the groups that it draws in the end. -/
def ConvertedAction.withLaw (c : ConvertedAction α) (group : ℕ) (law : Law α) : ConvertedAction α :=
  { c with
    course :=
      match c.course with
      | .instant event => .instant (event.withLaw group law)
      | .split action => .split { action with finish := action.finish.withLaw group law } }

/-- An action with another law, if it is picked. -/
def ConvertedAction.relaw (c : ConvertedAction α) (picked : Bool) (group : ℕ) (law : Law α) :
    ConvertedAction α :=
  if picked then c.withLaw group law else c

/-- A problem with another law in all actions that stem from a given schema. -/
def GroundProblem.withLaw (g : GroundProblem α) (id : SchemaId) (group : ℕ) (law : Law α) :
    GroundProblem α :=
  { g with actions := g.actions.map fun a => a.relaw id group law }

/-- Whether the action at a position stems from a given schema. -/
def GroundProblem.stems (g : GroundProblem α) (id : SchemaId) (i : ℕ) : Bool :=
  (g.actions[i]?).any fun a => decide (a.schema = id)

/-- Actions of which those at the positions that `picks` tells have another law. -/
def withLawAt (picks : ℕ → Bool) (group : ℕ) (law : Law α) (actions : List (ConvertedAction α)) :
    List (ConvertedAction α) :=
  actions.mapIdx fun i c => c.relaw (picks i) group law

/-- A problem with another law in the actions at some positions. -/
def ConvertedProblem.withLaw (p : ConvertedProblem α) (picks : ℕ → Bool) (group : ℕ)
    (law : Law α) : ConvertedProblem α :=
  { p with actions := withLawAt picks group law p.actions }

/-- A problem with another law in the single actions at some positions. -/
def CombinationProblem.withLaw (q : CombinationProblem α) (picks : ℕ → Bool) (group : ℕ)
    (law : Law α) : CombinationProblem α :=
  { q with singles := withLawAt picks group law q.singles }

/-! ### Grounding -/

/-- `List.modify` as `List.mapIdx`, with the positions at hand. -/
theorem modify_eq_mapIdx {β : Type} (l : List β) (i : ℕ) (f : β → β) :
    l.modify i f = l.mapIdx fun j x => if j = i then f x else x := by
  refine List.ext_getElem? fun j => ?_
  rw [List.getElem?_modify, List.getElem?_mapIdx]
  by_cases h : i = j
  · simp [h]
  · simp [h, Ne.symm h]

variable {u : Universe} {group : ℕ} {law : Law α}

/-- **Numbering targets**: `internGroups` does not look at laws. -/
theorem AtomTable.internGroups_modify (schema : String) (bindings : List ObjectId) (t : AtomTable)
    (groups : List (EffectSchema α)) (group : ℕ) :
    internGroups u schema bindings t (groups.modify group fun g => { g with law }) =
      (fun x => (x.1.modify group fun g => { g with law }, x.2)) <$>
        internGroups u schema bindings t groups := by
  induction groups generalizing t group with
  | nil =>
      rw [List.modify_nil]
      simp [internGroups]
  | cons g rest ih =>
      cases group with
      | zero => simp [internGroups]
      | succ group => simp [internGroups, ih]

namespace Schema

variable (s : Schema α) (own : SchemaId)

/-- A schema of a given number, with another law if it has the number `id`. -/
def relaw (id : SchemaId) (group : ℕ) (law : Law α) : Schema α :=
  if own = id then s.withLaw group law else s

/-- **Applying a schema**: `instantiate` with a tuple carries the laws along. -/
theorem instantiate_relaw (id : SchemaId) (t : AtomTable) (tuple : List ObjectId) :
    (s.relaw own id group law).instantiate u own t tuple =
      (fun x => (x.1.relaw id group law, x.2)) <$> s.instantiate u own t tuple := by
  by_cases h : own = id
  · simp only [instantiate, relaw, if_pos h, withLaw, AtomTable.internGroups_modify, map_bind,
      map_pure, bind_map_left, GroundAction.relaw]
    rfl
  · simp only [instantiate, relaw, if_neg h, map_bind, map_pure, GroundAction.relaw]

/-- `instantiateAll` carries the laws along, by induction on the tuples. -/
theorem instantiateAll_relaw (id : SchemaId) (t : AtomTable) (tuples : List (List ObjectId)) :
    (s.relaw own id group law).instantiateAll u own t tuples =
      (fun x => (x.1.map (·.relaw id group law), x.2)) <$> s.instantiateAll u own t tuples := by
  induction tuples generalizing t with
  | nil => rfl
  | cons tuple rest ih =>
      simp only [instantiateAll, instantiate_relaw, ih, map_bind, map_pure, bind_map_left,
        List.map_cons]

/-- `checkTuple` does not depend on the laws of a schema. -/
theorem checkTuple_relaw (id : SchemaId) :
    (s.relaw own id group law).checkTuple u = s.checkTuple u := by
  have hobjects : ∀ params objects, (s.withLaw group law).checkObjects u params objects =
      s.checkObjects u params objects := by
    intro params objects
    induction params generalizing objects with
    | nil => rfl
    | cons parameter params ih =>
        cases objects with
        | nil => rfl
        | cons object objects =>
            simp only [checkObjects, ih]
            rfl
  funext tuple
  rw [relaw]
  split
  · simp only [checkTuple, hobjects]
    rfl
  · rfl

end Schema

namespace Domain

variable (d : Domain α) (id : SchemaId)

/-- `tuplesFor` does not depend on the laws of a schema. -/
theorem tuplesFor_authoredWith (own : SchemaId) (s : Schema α) :
    (d.authoredWith id group law).tuplesFor own (s.relaw own id group law) = d.tuplesFor own s := by
  have hparams : (s.relaw own id group law).params = s.params := by
    rw [Schema.relaw]
    split <;> rfl
  simp only [tuplesFor, Schema.checkTuple_relaw, hparams]
  rfl

/-- **Grounding schemas** in order carries their laws along: `groundSchemas` commutes with `relaw`,
by induction on the schemas. -/
theorem groundSchemas_authoredWith (schemas : List (Schema α)) (next : ℕ) (t : AtomTable) :
    (d.authoredWith id group law).groundSchemas next t
        (schemas.mapIdx fun i s => s.relaw ⟨next + i⟩ id group law) =
      (fun x => (x.1.map (·.relaw id group law), x.2)) <$> d.groundSchemas next t schemas := by
  induction schemas generalizing next t with
  | nil => rfl
  | cons s rest ih =>
      have hrest : (rest.mapIdx fun i s => s.relaw ⟨next + (i + 1)⟩ id group law) =
          rest.mapIdx fun i s => s.relaw ⟨next + 1 + i⟩ id group law := by
        simp only [Nat.add_assoc, Nat.add_comm 1]
      have hdeclarations : (d.authoredWith id group law).declarations = d.declarations := rfl
      simp only [List.mapIdx_cons, hrest, groundSchemas, Nat.add_zero, tuplesFor_authoredWith,
        hdeclarations, Schema.instantiateAll_relaw, ih, map_bind, map_pure, bind_map_left,
        List.map_append]

/-- **Grounding commutes** with replacing a law: `ground` fails with the same error, or gives the
same problem with the law replaced in the actions that stem from the schema. -/
theorem ground_authoredWith (group : ℕ) (law : Law α) :
    (d.authoredWith id group law).ground = (·.withLaw id group law) <$> d.ground := by
  have hschemas : (d.authoredWith id group law).schemas =
      d.schemas.mapIdx fun i s => s.relaw ⟨0 + i⟩ id group law := by
    obtain ⟨index⟩ := id
    rw [authoredWith, modify_eq_mapIdx]
    simp only [Schema.relaw, Nat.zero_add, SchemaId.mk.injEq]
  simp only [ground, hschemas, groundSchemas_authoredWith, map_bind, map_pure, bind_map_left]
  rfl

end Domain

/-! ### Splitting and combining -/

/-- **Splitting** an action: `convert` puts its groups into the event with which it ends, where
`relaw` finds them. -/
theorem GroundAction.convert_relaw (a : GroundAction α) (id : SchemaId) (group : ℕ) (law : Law α) :
    (a.relaw id group law).convert = a.convert.relaw (decide (a.schema = id)) group law := by
  have hlaw : (a.withLaw group law).convert = a.convert.withLaw group law := by
    have hduration : (a.withLaw group law).duration = a.duration := rfl
    rw [convert, convert, ConvertedAction.withLaw, hduration]
    split <;> rfl
  rw [relaw, ConvertedAction.relaw, apply_ite convert, hlaw]
  simp only [decide_eq_true_eq]

/-- **Splitting commutes** with replacing a law: the actions that stem from the schema are at the
positions that `stems` tells. -/
theorem GroundProblem.convert_withLaw (g : GroundProblem α) (id : SchemaId) (group : ℕ)
    (law : Law α) :
    (g.withLaw id group law).convert = g.convert.withLaw (g.stems id) group law := by
  have hactions : (g.actions.map fun a => a.relaw id group law).map GroundAction.convert =
      withLawAt (g.stems id) group law (g.actions.map GroundAction.convert) := by
    refine List.ext_getElem? fun i => ?_
    rw [List.map_map, List.getElem?_map, withLawAt, List.getElem?_mapIdx, List.getElem?_map, stems]
    cases g.actions[i]? with
    | none => rfl
    | some a => exact congrArg some (a.convert_relaw id group law)
  rw [convert, withLaw, hactions]
  rfl

section Combine

variable (picks : ℕ → Bool) (group : ℕ) (law : Law α)

namespace ConvertedAction

variable (c : ConvertedAction α) (picked : Bool)

@[simp] theorem name_relaw : (c.relaw picked group law).name = c.name := by
  obtain ⟨_ | _, _, _⟩ := c <;> cases picked <;> rfl

@[simp] theorem resources_relaw : (c.relaw picked group law).resources = c.resources := by
  cases picked <;> rfl

@[simp] theorem combinable_relaw : (c.relaw picked group law).combinable = c.combinable := by
  cases picked <;> rfl

end ConvertedAction

/-- **Which pairs are made** by `combinePairs` does not depend on laws. -/
theorem combinePairs_relaw (l : List (ConvertedAction α × ℕ)) :
    combinePairs (l.map fun x => (x.1.relaw (picks x.2) group law, x.2)) = combinePairs l := by
  induction l with
  | nil => rfl
  | cons x rest ih =>
      have hpair : ∀ y : ConvertedAction α × ℕ, combinePair (x.1.relaw (picks x.2) group law, x.2)
          (y.1.relaw (picks y.2) group law, y.2) = combinePair x y := fun y => by
        simp [combinePair]
      rw [List.map_cons, combinePairs, combinePairs, ih, List.filterMap_map]
      simp only [Function.comp_def, hpair]

/-- **Combining commutes** with replacing a law: `combine` looks at names and resources only. -/
theorem ConvertedProblem.combine_withLaw (p : ConvertedProblem α) :
    (p.withLaw picks group law).combine = p.combine.withLaw picks group law := by
  have hzip : (withLawAt picks group law p.actions).zipIdx =
      p.actions.zipIdx.map fun x => (x.1.relaw (picks x.2) group law, x.2) := by
    refine List.ext_getElem? fun i => ?_
    rw [withLawAt, List.getElem?_zipIdx, List.getElem?_mapIdx, List.getElem?_map,
      List.getElem?_zipIdx, Option.map_map, Option.map_map, Nat.zero_add]
    rfl
  rw [combine, withLaw, hzip, combinePairs_relaw]
  rfl

/-- **Dropping combinations commutes** with replacing a law: `dropUncombinable` looks at
`combinable` only. -/
theorem CombinationProblem.dropUncombinable_withLaw (q : CombinationProblem α) :
    (q.withLaw picks group law).dropUncombinable = q.dropUncombinable.withLaw picks group law := by
  have hmay : (q.withLaw picks group law).mayCombine = q.mayCombine := by
    funext c
    simp [mayCombine, withLaw, withLawAt, Option.any_map]
  rw [dropUncombinable, hmay]
  rfl

end Combine

/-! ### All stages -/

/-- The groups that an action draws with its last event. -/
def ConvertedAction.drawn (c : ConvertedAction α) : List (EffectGroup α) :=
  (c.finish?.getD c.start).groups

/-- A split action draws the groups of the action that was split: `drawn` after `convert` is
`groups`. -/
theorem GroundAction.drawn_convert (a : GroundAction α) : a.convert.drawn = a.groups := by
  rw [ConvertedAction.drawn, finish?_convert, start_convert]
  by_cases h : a.duration = 0
  · simp only [if_pos h]
    rfl
  · simp only [if_neg h]
    rfl

namespace Domain

variable {d d' : Domain α} {name : String}

/-- The groups of an action that stems from a schema are as many as those of the schema. -/
theorem exists_group_of_stems {g : GroundProblem α} (hg : d.ground = .ok g) {id : SchemaId}
    {s : Schema α} (hs : d.schema? id = some s) {target : EffectSchema α}
    (htarget : s.groups[group]? = some target) {i : ℕ} (hi : g.stems id i = true) :
    ∃ a x, g.actions[i]? = some a ∧ a.schema = id ∧ a.groups[group]? = some x := by
  obtain ⟨a, ha, rfl⟩ : ∃ a, g.actions[i]? = some a ∧ a.schema = id := by
    simpa [GroundProblem.stems, Option.any_eq_true] using hi
  obtain ⟨s', hs', hinst⟩ := ground_instantiates hg a (List.mem_of_getElem? ha)
  obtain rfl : s = s' := Option.some.inj (hs.symm.trans hs')
  have hlt : group < a.groups.length :=
    hinst.groups.length_eq ▸ (List.getElem?_eq_some_iff.mp htarget).1
  exact ⟨a, a.groups[group], ha, rfl, List.getElem?_eq_getElem hlt⟩

/-- **Replacing a law commutes with compilation**, and touches nothing else. Let a law of a schema
be replaced. Then either both domains are compiled, or both fail with the same error. If they are
compiled, the problems of the new domain are those of the old one with the law replaced in just the
actions that stem from the schema, all of which have the group. In all other actions, and in all
other parts of these actions, of the problems, and of the combinations, they are the same. -/
theorem compile_withLaw (h : d.withLaw name group law = .ok d') :
    ∃ id, d.schemaId name = .ok id ∧
      (∀ e, d'.compileSplit = .error e ↔ d.compileSplit = .error e) ∧
      (∀ e, d'.compileCombination = .error e ↔ d.compileCombination = .error e) ∧
      ∀ p b, d.compileSplit = .ok p → d.compileCombination = .ok b →
        ∃ g, d.ground = .ok g ∧ p = g.convert ∧
          (∀ i, g.stems id i = true → ∃ a c x, g.actions[i]? = some a ∧ a.schema = id ∧
            a.groups[group]? = some x ∧ p.actions[i]? = some c ∧ c.drawn[group]? = some x) ∧
          d'.ground = .ok (g.withLaw id group law) ∧
          d'.compileSplit = .ok (p.withLaw (g.stems id) group law) ∧
          d'.compileCombination = .ok ⟨b.combination.withLaw (g.stems id) group law,
            b.split.withLaw (g.stems id) group law⟩ := by
  obtain ⟨id, s, target, hid, hs, htarget, -, rfl⟩ := withLaw_eq_ok_iff.mp h
  have hground := d.ground_authoredWith id group law
  refine ⟨id, hid, ?_, ?_, ?_⟩
  · intro e
    simp only [compileSplit, hground]
    cases d.ground <;> simp
  · intro e
    simp only [compileCombination, compileSplit, hground]
    cases d.ground <;> simp
  · intro p b hcompiled hb
    obtain ⟨g, hg, hp⟩ := bind_eq_ok_iff.mp hcompiled
    obtain rfl : g.convert = p := Except.ok.inj hp
    obtain ⟨p, hp, hb⟩ := bind_eq_ok_iff.mp hb
    obtain rfl : g.convert = p := Except.ok.inj (hcompiled.symm.trans hp)
    obtain rfl := Except.ok.inj hb
    have hground' : (d.authoredWith id group law).ground = .ok (g.withLaw id group law) := by
      rw [hground, hg]
      rfl
    have hsplit' : (d.authoredWith id group law).compileSplit =
        .ok (g.convert.withLaw (g.stems id) group law) := by
      rw [compileSplit, hground', ← g.convert_withLaw]
      rfl
    refine ⟨g, hg, rfl, fun i hi => ?_, hground', hsplit', ?_⟩
    · obtain ⟨a, x, ha, hid, hx⟩ := exists_group_of_stems hg hs htarget hi
      refine ⟨a, a.convert, x, ha, hid, hx, ?_, by rwa [a.drawn_convert]⟩
      rw [GroundProblem.convert, List.getElem?_map, ha, Option.map_some]
    · rw [compileCombination, hsplit', ← CombinationProblem.dropUncombinable_withLaw,
        ← ConvertedProblem.combine_withLaw]
      rfl

/-! ### A search in two rooms -/

/-- The light is on. -/
def lamplit : GroundFluent := ⟨⟨0⟩, []⟩

/-- The key is in a room. -/
def keyIn (room : ℕ) : GroundFluent := ⟨⟨1⟩, [⟨room⟩]⟩

/-- Something that happens every other time. -/
def evenly : Law ℚ := .coin (1 / 2) (1 / 2)

/-- A room can be searched while there is light. -/
def searchingIn : Schema ℚ where
  name := "search"
  params := [("where", ⟨0⟩)]
  duration := 1
  conditions := [⟨.overall, .nullary ⟨0⟩, true⟩]
  groups := [⟨[⟨⟨1⟩, [.param 0]⟩], evenly⟩]

/-- The switch does not always work. -/
def switching : Schema ℚ where
  name := "switch"
  duration := 0
  groups := [⟨[.nullary ⟨0⟩], evenly⟩]

/-- Two rooms, each of which can be searched for a key while there is light, and a switch for the
light. -/
def rooms : Domain ℚ where
  name := "rooms"
  kind := .regular
  declarations := {
    types := #[⟨"room"⟩]
    objects := #[⟨"attic", ⟨0⟩⟩, ⟨"cellar", ⟨0⟩⟩]
    fluents := #[⟨"lit", [], true⟩, ⟨"found", [⟨0⟩], true⟩] }
  schemas := [searchingIn, switching]
  goals := [(keyIn 0, true)]
  deadline := 3

/-- The numbers of light and of the keys. -/
def roomsTable : AtomTable := .ofList [lamplit, keyIn 0, keyIn 1]

/-- The search of a room. -/
def searchOf (name : String) (room : ℕ) : GroundAction ℚ :=
  ⟨name, ⟨0⟩, [⟨room⟩], 1, [(.overall, ⟨⟨0⟩, true⟩)], [], [⟨[⟨room + 1⟩], evenly, [⟨room⟩]⟩],
    .ofList [], true⟩

/-- The switch. -/
def switchGround : GroundAction ℚ :=
  ⟨"switch", ⟨1⟩, [], 0, [], [], [⟨[⟨0⟩], evenly, []⟩], .ofList [], true⟩

/-- The ground problem of the rooms. -/
def roomsGround : GroundProblem ℚ :=
  ⟨⟨"rooms", rooms.declarations, roomsTable, .ofList roomsTable.atoms, [⟨⟨1⟩, true⟩], 3⟩,
    [searchOf "search(attic)" 0, searchOf "search(cellar)" 1, switchGround]⟩

/-- All fluents of the rooms have numbers from the beginning. -/
theorem internChecked_rooms {f : GroundFluent} (hf : f ∈ [lamplit, keyIn 0, keyIn 1]) :
    roomsTable.internChecked rooms.declarations f =
      .ok (⟨[lamplit, keyIn 0, keyIn 1].idxOf f⟩, roomsTable) := by
  have hlist : roomsTable.toList = [lamplit, keyIn 0, keyIn 1] :=
    Numbering.toList_ofList (by decide)
  have hsignature : rooms.declarations.checkSignature f = .ok () := by
    simp only [List.mem_cons, List.not_mem_nil, or_false] at hf
    rcases hf with rfl | rfl | rfl <;> rfl
  rw [← hlist] at hf ⊢
  exact AtomTable.internChecked_of_mem hf hsignature

/-- Interning the template of one of the three fluents finds its number and leaves the table as it
is. -/
theorem internTemplates_rooms {schema : String} {bindings : List ObjectId} {template : Template}
    {f : GroundFluent} (hbind : template.bind bindings = some f)
    (hf : f ∈ [lamplit, keyIn 0, keyIn 1]) :
    AtomTable.internTemplates rooms.declarations schema bindings roomsTable [template] =
      .ok ([⟨[lamplit, keyIn 0, keyIn 1].idxOf f⟩], roomsTable) := by
  rw [AtomTable.internTemplates, AtomTable.internTemplate, hbind]
  simp only [internChecked_rooms hf]
  rfl

/-- The search of a room is an instance of its schema. -/
theorem instantiate_searchingIn {name : String} {room : ℕ}
    (hname : applied "search" [rooms.declarations.objectName ⟨room⟩] = name)
    (hroom : keyIn room ∈ [lamplit, keyIn 0, keyIn 1])
    (hnumber : [lamplit, keyIn 0, keyIn 1].idxOf (keyIn room) = room + 1) :
    searchingIn.instantiate rooms.declarations ⟨0⟩ roomsTable [⟨room⟩] =
      .ok (searchOf name room, roomsTable) := by
  have hlit : AtomTable.internTemplates rooms.declarations "search" [⟨room⟩] roomsTable
      [.nullary ⟨0⟩] = .ok ([⟨0⟩], roomsTable) :=
    internTemplates_rooms (f := lamplit) rfl (by decide)
  have hkey : AtomTable.internTemplates rooms.declarations "search" [⟨room⟩] roomsTable
      [⟨⟨1⟩, [.param 0]⟩] = .ok ([⟨room + 1⟩], roomsTable) := by
    rw [internTemplates_rooms rfl hroom, ← hnumber]
  have hgroups : AtomTable.internGroups rooms.declarations "search" [⟨room⟩] roomsTable
      searchingIn.groups = .ok ([⟨[⟨room + 1⟩], evenly, [⟨room⟩]⟩], roomsTable) :=
    bind_eq_ok_iff.mpr ⟨_, hkey, bind_eq_ok_iff.mpr ⟨([], roomsTable), rfl, rfl⟩⟩
  subst hname
  exact bind_eq_ok_iff.mpr ⟨_, hlit, bind_eq_ok_iff.mpr ⟨([], roomsTable), rfl,
    bind_eq_ok_iff.mpr ⟨([], roomsTable), rfl, bind_eq_ok_iff.mpr ⟨_, hgroups, rfl⟩⟩⟩⟩

/-- The fluents of the rooms are numbered by their defaults, so nothing else is numbered later. -/
theorem ground_rooms : rooms.ground = .ok roomsGround := by
  have htrue : rooms.declarations.defaultTrue = [lamplit, keyIn 0, keyIn 1] := by decide
  have hdefaults : rooms.defaults = (roomsTable, .ofList roomsTable.atoms) := by
    rw [Domain.defaults, htrue]
    rfl
  have hgoals : roomsTable.internLiterals rooms.declarations rooms.goals =
      .ok ([⟨⟨1⟩, true⟩], roomsTable) :=
    bind_eq_ok_iff.mpr ⟨_, internChecked_rooms (f := keyIn 0) (by decide),
      bind_eq_ok_iff.mpr ⟨([], roomsTable), rfl, rfl⟩⟩
  have hattic : searchingIn.instantiate rooms.declarations ⟨0⟩ roomsTable [⟨0⟩] =
      .ok (searchOf "search(attic)" 0, roomsTable) :=
    instantiate_searchingIn rfl (by decide) (by decide)
  have hcellar : searchingIn.instantiate rooms.declarations ⟨0⟩ roomsTable [⟨1⟩] =
      .ok (searchOf "search(cellar)" 1, roomsTable) :=
    instantiate_searchingIn rfl (by decide) (by decide)
  have hsearches : searchingIn.instantiateAll rooms.declarations ⟨0⟩ roomsTable [[⟨0⟩], [⟨1⟩]] =
      .ok ([searchOf "search(attic)" 0, searchOf "search(cellar)" 1], roomsTable) := by
    simp only [Schema.instantiateAll, hattic, bind_eq_ok_iff]
    exact ⟨_, rfl, _, ⟨_, hcellar, ([], _), rfl, rfl⟩, rfl⟩
  have hflip : AtomTable.internTemplates rooms.declarations "switch" [] roomsTable
      [.nullary ⟨0⟩] = .ok ([⟨0⟩], roomsTable) :=
    internTemplates_rooms (f := lamplit) rfl (by decide)
  have hgroups : AtomTable.internGroups rooms.declarations "switch" [] roomsTable
      switching.groups = .ok ([⟨[⟨0⟩], evenly, []⟩], roomsTable) :=
    bind_eq_ok_iff.mpr ⟨_, hflip, bind_eq_ok_iff.mpr ⟨([], roomsTable), rfl, rfl⟩⟩
  have hswitch : switching.instantiateAll rooms.declarations ⟨1⟩ roomsTable [[]] =
      .ok ([switchGround], roomsTable) := by
    simp only [Schema.instantiateAll, Schema.instantiate, bind_eq_ok_iff]
    exact ⟨_, ⟨([], _), rfl, ([], _), rfl, ([], _), rfl, _, hgroups, rfl⟩, ([], _), rfl, rfl⟩
  simp only [Domain.ground, hdefaults, bind_eq_ok_iff]
  refine ⟨([], _), rfl, _, hgoals, (roomsGround.actions, _), ?_, rfl⟩
  simp only [rooms, Domain.groundSchemas, bind_eq_ok_iff]
  exact ⟨[[⟨0⟩], [⟨1⟩]], rfl, _, hsearches, ([switchGround], _),
    ⟨[[]], rfl, _, hswitch, ([], _), rfl, rfl⟩, rfl⟩

/-- In the two rooms the key may be found rarely. Both searches are changed, and nothing else: the
switch works as often as before, and the same three pairs are combined. -/
theorem compile_withLaw_rooms :
    let rarely : Law ℚ := .coin (1 / 8) (7 / 8)
    ∃ d' p b p' b', rooms.withLaw "search" 0 rarely = .ok d' ∧
      rooms.compileSplit = .ok p ∧ rooms.compileCombination = .ok b ∧
      d'.compileSplit = .ok p' ∧ d'.compileCombination = .ok b' ∧ p'.core = p.core ∧
      p.actions.map (fun c => (c.name, c.drawn)) =
        [("search(attic)", [⟨[⟨1⟩], evenly, [⟨0⟩]⟩]), ("search(cellar)", [⟨[⟨2⟩], evenly, [⟨1⟩]⟩]),
          ("switch", [⟨[⟨0⟩], evenly, []⟩])] ∧
      p'.actions.map (fun c => (c.name, c.drawn)) =
        [("search(attic)", [⟨[⟨1⟩], rarely, [⟨0⟩]⟩]), ("search(cellar)", [⟨[⟨2⟩], rarely, [⟨1⟩]⟩]),
          ("switch", [⟨[⟨0⟩], evenly, []⟩])] ∧
      b'.combination.singles = p'.actions ∧
      b.combination.combinations.map (fun c => (c.name, c.parts)) =
        [("search(attic)|search(cellar)", [0, 1]), ("search(attic)|switch", [0, 2]),
          ("search(cellar)|switch", [1, 2])] ∧
      b'.combination.combinations = b.combination.combinations := by
  intro rarely
  have hlaw : rooms.withLaw "search" 0 rarely = .ok (rooms.authoredWith ⟨0⟩ 0 rarely) := rfl
  have hsplit : rooms.compileSplit = .ok roomsGround.convert := by
    rw [compileSplit, ground_rooms]
    rfl
  have hboth : rooms.compileCombination =
      .ok ⟨roomsGround.convert.combine.dropUncombinable, roomsGround.convert⟩ := by
    rw [compileCombination, hsplit]
    rfl
  obtain ⟨id, hid, -, -, hcompiled⟩ := compile_withLaw hlaw
  obtain rfl : ⟨0⟩ = id := Except.ok.inj hid
  obtain ⟨g, hg, -, -, -, hsplit', hboth'⟩ := hcompiled _ _ hsplit hboth
  obtain rfl := Except.ok.inj (ground_rooms.symm.trans hg)
  exact ⟨_, _, _, _, _, hlaw, hsplit, hboth, hsplit', hboth', rfl, rfl, rfl, rfl, by decide +kernel,
    rfl⟩

end Domain

end DurativePlanning
