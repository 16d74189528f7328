import DurativePlanning.Proofs.Mdp.Accepted
import DurativePlanning.Proofs.Problem.Counts
import DurativePlanning.Proofs.Reference.Rover
import Mathlib.Algebra.BigOperators.Ring.List

/-!
# Any Number of Rovers

The domain of the rovers grows with their number, and so does what is made of it. Each rover
contributes the same schemas with its own objects, so instances can be counted rover by rover, and
what belongs to one rover tells which rover an action is of. Two instances are in conflict only when
both need the same store, and nine instances of a rover need each of its two stores.

* `Reference.perm_instances`: the instances of the domain, one rover after the other.
* `Reference.countP_instances`: what is counted over all instances.
* `Reference.users_instances`, `Reference.conflicts_instances`: who needs a store, and how many
  pairs of instances are in conflict.
* `Reference.namesApart_roverDomain`, `Reference.namesPlain_roverDomain`, `Reference.nodup_tuples`:
  what tells ground actions apart.
* `Reference.Fleet`, `Reference.fleet_of_ground`: what grounding makes of `n` rovers.
* `Reference.rover_scales`: from authoring to the processes, for any number of rovers.
-/

namespace DurativePlanning

/-- Two loops may change places, up to the order of what they list. -/
theorem perm_flatMap_comm {β γ δ : Type} (xs : List β) (ys : List γ) (f : β → γ → List δ) :
    (xs.flatMap fun x => ys.flatMap (f x)).Perm (ys.flatMap fun y => xs.flatMap (f · y)) := by
  induction xs with
  | nil => simp
  | cons x rest ih =>
      simp only [List.flatMap_cons]
      exact (ih.append_left _).trans (List.flatMap_append_perm ys (f x) _)

/-- Literals that `Denotes` relates to different ground fluents are different. -/
theorem AtomTable.nodup_of_denotes {t : AtomTable} {literals : List Literal}
    {values : List (GroundFluent × Bool)} (h : List.Forall₂ t.Denotes literals values)
    (hvalues : values.Nodup) : literals.Nodup := by
  induction h with
  | nil => exact List.nodup_nil
  | @cons l x _ _ hfirst hrest ih =>
      rw [List.nodup_cons] at hvalues ⊢
      refine ⟨fun hl => hvalues.1 ?_, ih hvalues.2⟩
      obtain ⟨y, hy, hsecond⟩ := exists_of_forall₂ hrest hl
      have hfluent : x.1 = y.1 := lookup_injective hfirst.1 hsecond.1
      have hvalue : x.2 = y.2 := hfirst.2.symm.trans hsecond.2
      exact (Prod.ext hfluent hvalue : x = y) ▸ hy

namespace Reference

/-! ### Objects of several rovers -/

section Objects

variable {n i j : ℕ}

/-- Objects that each rover has two of, one rover after the other. -/
theorem flatMap_pairs (first n : ℕ) :
    ((List.range n).flatMap fun i => [ObjectId.mk (first + 2 * i), ⟨first + 2 * i + 1⟩]) =
      (List.range (2 * n)).map (⟨first + ·⟩) := by
  induction n with
  | zero => rfl
  | succ n ih =>
      rw [List.range_succ, List.flatMap_append, ih, Nat.mul_succ, List.range_succ, List.range_succ]
      simp [Nat.add_assoc]

theorem nodup_ids (first n : ℕ) : ((List.range n).map fun i => ObjectId.mk (first + i)).Nodup :=
  List.nodup_range.map fun _ _ h => Nat.add_left_cancel (ObjectId.mk.inj h)

/-- The stores of all rovers. -/
def allStores (n : ℕ) : List ObjectId := (roverKits n).flatMap (·.stores)

/-- The stores of all rovers come after the rovers, two for each of them. -/
theorem allStores_eq (n : ℕ) : allStores n = (List.range (2 * n)).map (⟨n + ·⟩) := by
  rw [allStores, roverKits, List.flatMap_map]
  exact flatMap_pairs n n

theorem length_allStores (n : ℕ) : (allStores n).length = 2 * n := by
  rw [allStores_eq, List.length_map, List.length_range]

theorem nodup_allStores (n : ℕ) : (allStores n).Nodup := by
  rw [allStores_eq]
  exact nodup_ids n (2 * n)

/-- The rocks of all rovers. -/
theorem flatMap_rocks (n : ℕ) :
    (roverKits n).flatMap (·.rocks) = (List.range (2 * n)).map (⟨5 * n + ·⟩) := by
  rw [roverKits, List.flatMap_map]
  exact flatMap_pairs (5 * n) n

/-- **No object belongs to two rovers.** -/
theorem eq_of_mem_objectsOf {o : ObjectId} (hi : i < n) (hj : j < n)
    (h : o ∈ objectsOf (roverKit n i)) (h' : o ∈ objectsOf (roverKit n j)) : i = j := by
  obtain ⟨k⟩ := o
  -- objects are numbered kind by kind, so a number tells the kind and the rover
  simp only [objectsOf, roverKit, List.cons_append, List.nil_append, List.mem_cons,
    ObjectId.mk.injEq, List.not_mem_nil, or_false] at h h'
  omega

/-- There are three goals for each rover: two rocks and one objective. -/
theorem length_roverGoals (n : ℕ) : (roverGoals n).length = 3 * n := by
  rw [roverGoals, flatMap_rocks, roverKits]
  simp only [List.length_append, List.length_map, List.length_range]
  omega

/-- The `roverGoals` are different ground fluents. -/
theorem nodup_roverGoals (n : ℕ) : (roverGoals n).Nodup := by
  have hobjectives : ((roverKits n).map (·.objective)).Nodup := by
    rw [roverKits, List.map_map]
    exact nodup_ids (4 * n) n
  have hrocks := nodup_ids (5 * n) (2 * n)
  rw [← flatMap_rocks] at hrocks
  refine List.nodup_append.mpr ⟨hrocks.map fun _ _ h => by simpa using h, ?_, ?_⟩
  · have hgoals := hobjectives.map (f := fun o => GroundFluent.mk ⟨6⟩ [o]) fun _ _ h => by
      simpa using h
    rwa [List.map_map] at hgoals
  · intro f hf f' hf' hsame
    obtain ⟨o, -, rfl⟩ := List.mem_map.mp hf
    obtain ⟨kit, -, rfl⟩ := List.mem_map.mp hf'
    exact absurd hsame (by simp)

end Objects

/-! ### Instances of several rovers -/

section Instances

variable {α : Type} [Arithmetic α] {kind : DomainKind} {deadline n i : ℕ}

/-- The schemas with the tuples of one rover. -/
def kitInstances (regular : Bool) (kit : RoverKit) : List (Instance α) :=
  (roverActions regular).flatMap fun x => (x.2 kit).map (⟨x.1, ·⟩)

/-- **The instances of the domain** are `kitInstances` of all rovers, up to their order. -/
theorem perm_instances : (roverDomain (α := α) kind deadline n).instances.Perm
    ((roverKits n).flatMap (kitInstances (decide (kind ≠ .combination)))) := by
  have hlisted : ∀ x ∈ roverActions (α := α) (decide (kind ≠ .combination)),
      ((roverKits n).flatMap x.2).map (⟨x.1, ·⟩) =
        (roverKits n).flatMap fun kit => (x.2 kit).map (Instance.mk x.1 ·) :=
    fun _ _ => List.map_flatMap
  rw [restricts_roverDomain.instances_eq, roverListing, List.flatMap_map,
    List.flatMap_congr hlisted]
  exact perm_flatMap_comm _ _ _

/-- `List.countP` counts instances rover by rover. -/
theorem countP_instances (p : Instance α → Bool) :
    (roverDomain kind deadline n).instances.countP p =
      ((List.range n).map fun i =>
        (kitInstances (decide (kind ≠ .combination)) (roverKit n i)).countP p).sum := by
  rw [perm_instances.countP_eq, List.countP_flatMap, roverKits, List.map_map]
  rfl

/-- What each rover has equally many of. -/
theorem countP_instances_of_const {p : Instance α → Bool} {count : ℕ}
    (h : ∀ i, (kitInstances (decide (kind ≠ .combination)) (roverKit n i)).countP p = count) :
    (roverDomain kind deadline n).instances.countP p = count * n := by
  rw [countP_instances, Nat.mul_comm]
  simp only [h, List.map_const', List.sum_replicate_nat, List.length_range]

/-- There are thirty-three instances for each rover. -/
theorem length_instances : (roverDomain (α := α) kind deadline n).instances.length = 33 * n := by
  rw [← List.countP_true]
  refine countP_instances_of_const fun i => ?_
  cases decide (kind ≠ .combination) <;> rfl

/-- Only the getting ready of hands that are not good takes no time. -/
theorem countP_instant : (roverDomain (α := α) kind deadline n).instances.countP
    (·.schema.duration = 0) = 4 * n := by
  refine countP_instances_of_const fun i => ?_
  cases decide (kind ≠ .combination) <;> rfl

/-- Each instance of the domain is a schema with a tuple of one rover. -/
theorem exists_of_mem_instances {x : Instance α}
    (hx : x ∈ (roverDomain kind deadline n).instances) :
    ∃ i < n, ∃ y ∈ roverActions (α := α) (decide (kind ≠ .combination)), x.schema = y.1 ∧
      x.tuple ∈ y.2 (roverKit n i) := by
  obtain ⟨kit, hkit, hx⟩ := List.mem_flatMap.mp (perm_instances.mem_iff.mp hx)
  obtain ⟨i, hi, rfl⟩ := List.mem_map.mp hkit
  obtain ⟨y, hy, hx⟩ := List.mem_flatMap.mp hx
  obtain ⟨tuple, htuple, rfl⟩ := List.mem_map.mp hx
  exact ⟨i, List.mem_range.mp hi, y, hy, rfl, htuple⟩

/-! ### Stores in use -/

/-- The ground fluent that an action uses to keep a store for itself. -/
def freeStore (store : ObjectId) : GroundFluent := ⟨⟨10⟩, [store]⟩

/-- What the instances of a schema need when there are `count` of them for each store: the store,
unless stores are left out. -/
def keeping (regular : Bool) (count : ℕ) (stores : List ObjectId) : List (List GroundFluent) :=
  stores.flatMap fun store => List.replicate count (if regular then [freeStore store] else [])

/-- `keeping` lists what needs one of the stores, and in combination mode nothing. -/
theorem eq_of_mem_keeping {regular : Bool} {count : ℕ} {stores : List ObjectId}
    {needed : List GroundFluent} (h : needed ∈ keeping regular count stores) :
    ∃ store ∈ stores, needed = if regular then [freeStore store] else [] := by
  obtain ⟨store, hstore, h⟩ := List.mem_flatMap.mp h
  exact ⟨store, hstore, (List.mem_replicate.mp h).2⟩

/-- `keeping` counts so many needs of a store for each time that it is listed. -/
theorem countP_keeping (store : ObjectId) (count : ℕ) (stores : List ObjectId) :
    (keeping true count stores).countP (· == [freeStore store]) = count * stores.count store := by
  induction stores with
  | nil => rfl
  | cons first rest ih =>
      have hsame : ([freeStore first] == [freeStore store]) = (first == store) := by
        simp [freeStore]
      rw [keeping] at ih ⊢
      rw [List.flatMap_cons, List.countP_append, ih, if_pos rfl, List.countP_replicate, hsame,
        List.count_cons, Nat.mul_add, Nat.add_comm]
      split <;> simp

/-- **What the instances of one rover need**, in the order of `kitInstances`: sampling, of both
kinds, and getting ready to drop need a store. -/
theorem map_resources_kitInstances (regular : Bool) (n i : ℕ) :
    (kitInstances (α := α) regular (roverKit n i)).map (·.resources) =
      keeping regular 4 (roverKit n i).stores ++ keeping regular 4 (roverKit n i).stores ++
        List.replicate 3 [] ++ keeping regular 1 (roverKit n i).stores ++
          List.replicate 12 [] := by
  cases regular <;> rfl

/-- Each instance needs one store at most. -/
theorem resources_of_mem_instances {x : Instance α}
    (hx : x ∈ (roverDomain kind deadline n).instances) : x.resources = [] ∨
      kind ≠ .combination ∧ ∃ store ∈ allStores n, x.resources = [freeStore store] := by
  obtain ⟨kit, hkit, hx⟩ := List.mem_flatMap.mp (perm_instances.mem_iff.mp hx)
  obtain ⟨i, -, rfl⟩ := List.mem_map.mp hkit
  have hresources := List.mem_map_of_mem (f := fun x : Instance α => x.resources) hx
  have hkept : ∀ {count}, x.resources ∈
      keeping (decide (kind ≠ .combination)) count (roverKit n i).stores → x.resources = [] ∨
      kind ≠ .combination ∧ ∃ store ∈ allStores n, x.resources = [freeStore store] := by
    intro count h
    obtain ⟨store, hstore, h⟩ := eq_of_mem_keeping h
    split at h
    · next hregular =>
      exact .inr ⟨of_decide_eq_true hregular, store, List.mem_flatMap.mpr ⟨_, hkit, hstore⟩, h⟩
    · exact .inl h
  rw [map_resources_kitInstances] at hresources
  simp only [List.mem_append, List.mem_replicate] at hresources
  rcases hresources with (((h | h) | ⟨-, h⟩) | h) | ⟨-, h⟩
  · exact hkept h
  · exact hkept h
  · exact .inl h
  · exact hkept h
  · exact .inl h

/-- Nine instances of a rover are `users` of one of its stores. -/
theorem users_kitInstances (store : ObjectId) (n i : ℕ) :
    users (freeStore store) (kitInstances (α := α) true (roverKit n i)) =
      9 * (roverKit n i).stores.count store := by
  have hnothing : ∀ count, (List.replicate count []).countP (· == [freeStore store]) = 0 := by
    intro count
    rw [List.countP_replicate]
    rfl
  calc users (freeStore store) (kitInstances (α := α) true (roverKit n i))
      = ((kitInstances (α := α) true (roverKit n i)).map (·.resources)).countP
          (· == [freeStore store]) := by rw [List.countP_map]; rfl
    _ = 9 * (roverKit n i).stores.count store := by
        rw [map_resources_kitInstances]
        simp only [List.countP_append, countP_keeping, hnothing]
        omega

/-- **Nine instances need each store.** -/
theorem users_instances (hregular : kind ≠ .combination) {store : ObjectId}
    (hstore : store ∈ allStores n) :
    users (freeStore store) (roverDomain (α := α) kind deadline n).instances = 9 := by
  have hkit : ∀ i, (kitInstances (α := α) (decide (kind ≠ .combination)) (roverKit n i)).countP
      (fun x => x.resources == [freeStore store]) = 9 * (roverKit n i).stores.count store := by
    intro i
    rw [decide_eq_true hregular]
    exact users_kitInstances store n i
  have hone := List.count_eq_one_of_mem (nodup_allStores n) hstore
  rw [allStores, List.count_flatMap, roverKits, List.map_map] at hone
  rw [users, countP_instances]
  simp only [hkit]
  rw [List.sum_map_mul_left]
  exact congrArg (9 * ·) hone

/-- **How many instances are in conflict**: all users of a store with each other, nine of each, two
stores for each rover. -/
theorem conflicts_instances : conflicts (roverDomain (α := α) kind deadline n).instances =
    if kind = .combination then 0 else 72 * n := by
  split
  · next hcombination =>
    have hnone : ∀ x ∈ (roverDomain (α := α) kind deadline n).instances,
        x.resources = [] ∨ ∃ f ∈ (∅ : Finset GroundFluent), x.resources = [f] :=
      fun x hx => (resources_of_mem_instances hx).imp_right fun h => absurd hcombination h.1
    rw [conflicts_eq_sum hnone, Finset.sum_empty]
  · next hregular =>
    have hone : ∀ x ∈ (roverDomain (α := α) kind deadline n).instances, x.resources = [] ∨
        ∃ f ∈ ((allStores n).map freeStore).toFinset, x.resources = [f] := by
      intro x hx
      refine (resources_of_mem_instances hx).imp_right fun ⟨_, store, hstore, h⟩ => ?_
      exact ⟨_, List.mem_toFinset.mpr (List.mem_map_of_mem hstore), h⟩
    have hnodup : ((allStores n).map freeStore).Nodup :=
      (nodup_allStores n).map fun _ _ h => by simpa [freeStore] using h
    have husers : ∀ f ∈ ((allStores n).map freeStore).toFinset,
        (users f (roverDomain (α := α) kind deadline n).instances).choose 2 = 36 := by
      intro f hf
      obtain ⟨store, hstore, rfl⟩ := List.mem_map.mp (List.mem_toFinset.mp hf)
      rw [users_instances hregular hstore]
      rfl
    rw [conflicts_eq_sum hone, Finset.sum_const_nat husers, List.toFinset_card_of_nodup hnodup,
      List.length_map, length_allStores]
    omega

/-! ### Names -/

/-- The objects and the schemas of the rovers have names of their own. -/
theorem namesApart_roverDomain : (roverDomain (α := α) kind deadline n).NamesApart where
  objects := ObjectBlock.nodup_names (pairwise_apart_roverBlocks n)
  schemas := by
    rw [restricts_roverDomain.schemas, roverListing, List.map_map, List.map_map]
    exact (names_roverActions (α := α) (decide (kind ≠ .combination))).symm ▸ (by decide)

/-- No separator stands in the names of the rovers. -/
theorem namesPlain_roverDomain : (roverDomain (α := α) kind deadline n).NamesPlain where
  objects := by
    have hletters : ∀ letter ∈ (roverBlocks n).map (·.letter), IsPlain letter :=
      (by decide : ∀ letter ∈ ["r", "s", "c", "o", "x", "h"], IsPlain letter)
    intro o ho
    obtain ⟨b, hb, ho⟩ := List.mem_flatMap.mp ho
    exact ObjectBlock.isPlain_of_mem_decls (hletters _ (List.mem_map_of_mem hb)) ho
  schemas := by
    have hnames : ∀ name ∈ (roverActions (α := α) (decide (kind ≠ .combination))).map (·.1.name),
        IsPlain name := names_roverActions (α := α) (decide (kind ≠ .combination)) ▸ (by decide)
    rw [restricts_roverDomain.schemas, roverListing, List.map_map]
    exact List.forall_mem_map.mpr fun x hx => hnames _ (List.mem_map_of_mem hx)

/-- One rover has each tuple once. -/
theorem nodup_tuples_of_kit (regular : Bool) (n i : ℕ) :
    ∀ x ∈ roverActions (α := α) regular, (x.2 (roverKit n i)).Nodup := by
  simp only [roverActions, roverSchemas, List.forall_mem_cons, roverKit]
  simp

/-- Each tuple of a rover has an object. -/
theorem ne_nil_of_mem_tuples (regular : Bool) (kit : RoverKit) :
    ∀ x ∈ roverActions (α := α) regular, ∀ tuple ∈ x.2 kit, tuple ≠ [] := by
  simp only [roverActions, roverSchemas, List.forall_mem_cons, List.forall_mem_flatMap,
    List.forall_mem_map]
  simp

/-- **No tuple is listed twice** by `tuples?`. -/
theorem nodup_tuples {id : SchemaId} {tuples : List (List ObjectId)}
    (h : (roverDomain (α := α) kind deadline n).tuples? id = some tuples) : tuples.Nodup := by
  rw [restricts_roverDomain.tuples?_eq, roverListing, List.getElem?_map, Option.map_map] at h
  obtain ⟨x, hx, rfl⟩ := Option.map_eq_some_iff.mp h
  have hx := List.mem_of_getElem? hx
  rw [Function.comp_apply, List.nodup_flatMap, roverKits, List.forall_mem_map, List.pairwise_map]
  refine ⟨fun i _ => nodup_tuples_of_kit _ n i x hx, ?_⟩
  refine List.nodup_range.imp_of_mem fun {i j} hi hj hne => ?_
  rw [Function.onFun, List.disjoint_left]
  intro tuple htuple htuple'
  -- any member of a tuple tells whose tuple it is
  obtain ⟨o, ho⟩ := List.exists_mem_of_ne_nil tuple (ne_nil_of_mem_tuples _ _ x hx tuple htuple)
  exact hne (eq_of_mem_objectsOf (List.mem_range.mp hi) (List.mem_range.mp hj)
    (mem_objectsOf_of_mem x hx tuple htuple o ho) (mem_objectsOf_of_mem x hx tuple htuple' o ho))

/-! ### The ground problem -/

/-- `ground` succeeds on the domain of the rovers. -/
theorem exists_ground_roverDomain (kind : DomainKind) (deadline n : ℕ) :
    ∃ g, (roverDomain (α := α) kind deadline n).ground = .ok g := by
  refine restricts_roverDomain.exists_ground (Domain.Configured.built build_roverDomain).sound ?_
  refine List.forall_mem_map.mpr fun x hx tuple htuple => ?_
  obtain ⟨kit, hkit, htuple⟩ := List.mem_flatMap.mp htuple
  exact suits_of_wellKept (wellKept_of_mem hkit) x hx tuple htuple

/-- All actions of the rovers may be combined. -/
theorem combinable_roverActions (regular : Bool) :
    ∀ x ∈ roverActions (α := α) regular, x.1.combinable = true := by
  simp only [roverActions, roverSchemas, List.forall_mem_cons]
  cases regular <;> exact ⟨rfl, rfl, rfl, rfl, rfl, rfl, rfl, rfl, rfl, rfl, by simp⟩

/-- **A ground problem of `n` rovers**: how much there is of everything, and what belongs to
whom. -/
structure Fleet (kind : DomainKind) (n : ℕ) (g : GroundProblem α) : Prop where
  actions : g.actions.length = 33 * n
  names : (g.actions.map (·.name)).Nodup
  events : g.convert.eventCount = 62 * n
  /-- All objects of an action belong to one rover. -/
  owned : ∀ a ∈ g.actions, ∃ i < n, ∀ o ∈ a.args, ∃ decl,
    g.core.declarations.object? o = some decl ∧
      (g.core.declarations.typeName decl.type, decl.name) ∈ belongings i
  goals : g.core.goals.length = 3 * n
  goals_nodup : g.core.goals.Nodup
  /-- Of all pairs only those with a common store are missing, if stores are needed at all. -/
  combinations : g.convert.combine.combinations.length +
    (if kind = .combination then 0 else 72 * n) = 33 * n * (33 * n - 1) / 2
  kept : g.convert.combine.dropUncombinable = g.convert.combine

variable {g : GroundProblem α}

/-- Each ground action comes from a schema of `roverActions` and a tuple of one rover. -/
theorem exists_of_mem_actions (hg : g.Embodies (roverDomain kind deadline n)) {a : GroundAction α}
    (ha : a ∈ g.actions) : ∃ i < n, ∃ y ∈ roverActions (α := α) (decide (kind ≠ .combination)),
      a.combinable = y.1.combinable ∧ a.args ∈ y.2 (roverKit n i) := by
  obtain ⟨x, hx, hembodies⟩ := exists_of_forall₂ hg.actions ha
  obtain ⟨i, hi, y, hy, hschema, htuple⟩ := exists_of_mem_instances hx
  exact ⟨i, hi, y, hy, hschema ▸ hembodies.instantiates.combinable, hembodies.args ▸ htuple⟩

/-- **What grounding makes of the rovers** is a `Fleet`. -/
theorem fleet_of_ground (h : (roverDomain kind deadline n).ground = .ok g) : Fleet kind n g where
  actions := (Domain.embodies_of_ground h).actions.length_eq.trans length_instances
  names := Domain.nodup_groundNames namesApart_roverDomain namesPlain_roverDomain
    (fun _ _ => nodup_tuples) h
  events := by
    have hevents := (Domain.embodies_of_ground h).eventCount_add
    rw [countP_instant, length_instances] at hevents
    omega
  owned := by
    intro a ha
    obtain ⟨i, hi, y, hy, -, hargs⟩ := exists_of_mem_actions (Domain.embodies_of_ground h) ha
    rw [(Domain.embodies_of_ground h).declarations]
    exact ⟨i, hi, fun o ho => mem_belongings hi o (mem_objectsOf_of_mem y hy a.args hargs o ho)⟩
  goals := by
    rw [(Domain.embodies_of_ground h).goals.length_eq]
    exact (List.length_map _).trans (length_roverGoals n)
  goals_nodup := AtomTable.nodup_of_denotes (Domain.embodies_of_ground h).goals
    ((nodup_roverGoals n).map fun _ _ hpair => (Prod.mk.inj hpair).1)
  combinations := by
    have hpairs := (Domain.embodies_of_ground h).length_combine
    rwa [conflicts_instances, length_instances, Nat.choose_two_right] at hpairs
  kept := by
    refine ConvertedProblem.dropUncombinable_combine (List.forall_mem_map.mpr fun a ha => ?_)
    obtain ⟨-, -, y, hy, hcombinable, -⟩ :=
      exists_of_mem_actions (Domain.embodies_of_ground h) ha
    exact hcombinable.trans (combinable_roverActions _ y hy)

end Instances

/-! ### The processes -/

/-- The laws of the rovers pass `Law.check`, as doubles are added up. -/
theorem passes_roverActions (regular : Bool) :
    ∀ x ∈ roverActions (α := Float) regular, ∀ group ∈ x.1.groups, group.law.Passes := by
  have hchecked : ∀ regular, ((roverActions (α := Float) regular).all fun x =>
      x.1.groups.all fun group => (group.law.check x.1.name 0 Law.tolerance).isOk) = true := by
    decide +kernel
  intro x hx group hgroup
  exact Law.passes_of_isOk
    (List.all_eq_true.mp (List.all_eq_true.mp (hchecked regular) x hx) group hgroup)

variable {kind : DomainKind} {deadline n : ℕ}

/-- **Both problems are read as processes**: `Mdp.check` accepts them with a discount between zero
and one. -/
theorem check_of_ground {g : GroundProblem Float} {discount : Float}
    (h : (roverDomain kind deadline n).ground = .ok g) (hlow : 0 ≤ discount)
    (hhigh : discount ≤ 1) : Mdp.check g.convert.actions discount = .ok () := by
  refine Mdp.check_eq_ok (isUnit_double_iff.mpr ⟨hlow, hhigh⟩)
    ((Domain.embodies_of_ground h).passes ?_)
  exact List.forall_mem_map.mpr fun x hx => passes_roverActions _ x hx

/-- **The rovers scale**: for every kind, deadline, number of rovers and discount between zero and
one, the domain is authored, grounded and compiled, both problems are read as processes, and the
ground problem has so much of everything. -/
theorem rover_scales (kind : DomainKind) (deadline n : ℕ) {discount : Float} (hlow : 0 ≤ discount)
    (hhigh : discount ≤ 1) : ∃ (d : Domain Float) (g : GroundProblem Float),
    rover kind deadline n = .ok d ∧ d.ground = .ok g ∧
      d.compileSplit = .ok g.convert ∧
      d.compileCombination = .ok ⟨g.convert.combine.dropUncombinable, g.convert⟩ ∧
      (∃ m, Mdp.ofConverted g.convert discount = .ok m) ∧
      (∃ m, Mdp.ofCombination g.convert.combine.dropUncombinable discount = .ok m) ∧
      Fleet kind n g := by
  obtain ⟨g, hground⟩ := exists_ground_roverDomain (α := Float) kind deadline n
  have hsplit : (roverDomain kind deadline n).compileSplit = .ok g.convert :=
    bind_eq_ok_iff.mpr ⟨g, hground, rfl⟩
  have hcheck := check_of_ground hground hlow hhigh
  exact ⟨roverDomain kind deadline n, g, rover_eq, hground, hsplit,
    bind_eq_ok_iff.mpr ⟨g.convert, hsplit, rfl⟩,
    ⟨_, Mdp.ofConverted_eq_ok_iff.mpr ⟨hcheck, rfl⟩⟩,
    ⟨_, Mdp.ofCombination_eq_ok_iff.mpr ⟨hcheck, rfl⟩⟩, fleet_of_ground hground⟩

/-- Two rovers, whose stores are kept for one action at a time. -/
theorem rover_scales_pair : (0 : Float) ≤ 0.95 ∧ (0.95 : Float) ≤ 1 ∧
    ∃ (d : Domain Float) (g : GroundProblem Float) (split combination : Mdp Float),
      rover .regular 20 2 = .ok d ∧ d.compileSplit = .ok g.convert ∧
        Mdp.ofConverted g.convert 0.95 = .ok split ∧
        Mdp.ofCombination g.convert.combine.dropUncombinable 0.95 = .ok combination ∧
        g.actions.length = 66 ∧ g.convert.eventCount = 124 ∧ g.core.goals.length = 6 ∧
        g.convert.combine.dropUncombinable.combinations.length = 2001 := by
  have hlow : (0 : Float) ≤ 0.95 := by decide +kernel
  have hhigh : (0.95 : Float) ≤ 1 := by decide +kernel
  obtain ⟨d, g, hrover, -, hsplit, -, ⟨split, hprocess⟩, ⟨combination, hprocess'⟩, hfleet⟩ :=
    rover_scales .regular 20 2 hlow hhigh
  have hpairs := hfleet.combinations
  rw [if_neg (by decide)] at hpairs
  refine ⟨hlow, hhigh, d, g, split, combination, hrover, hsplit, hprocess, hprocess',
    hfleet.actions, hfleet.events, hfleet.goals, ?_⟩
  rw [hfleet.kept]
  omega

end Reference

end DurativePlanning
