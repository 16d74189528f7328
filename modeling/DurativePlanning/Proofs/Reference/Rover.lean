import DurativePlanning.Proofs.Reference.Authoring

/-!
# The Rovers, Written Down

For any number of rovers this module writes down what their authoring amounts to: which declarations
there are, in which order, which objects belong to which rover, and the domain with all schemas and
tuples. Nothing is refused on the way, so the authoring gives just this domain.

* `Reference.roverUniverse`: the declarations.
* `Reference.belongings`, `Reference.mem_belongings`: what belongs to the rover with a number.
* `Reference.mem_objectsOf_of_mem`, `Reference.suits_of_wellKept`: the tuples of a rover hold
  objects of this rover, of the right types.
* `Reference.roverDomain`, `Reference.build_roverDomain`: the domain, which is accepted.
* `Reference.rover_eq`: authoring gives this domain.
-/

namespace DurativePlanning.Reference

/-- The numbers of the types. -/
def roverTypeIds : RoverTypes := ⟨⟨0⟩, ⟨1⟩, ⟨2⟩, ⟨3⟩, ⟨4⟩, ⟨5⟩⟩

/-- The numbers of the fluents. -/
def roverFluentIds : RoverFluents :=
  ⟨⟨0⟩, ⟨1⟩, ⟨2⟩, ⟨3⟩, ⟨4⟩, ⟨5⟩, ⟨6⟩, ⟨7⟩, ⟨8⟩, ⟨9⟩, ⟨10⟩, ⟨11⟩, ⟨12⟩, ⟨13⟩, ⟨14⟩⟩

/-- The types of the rovers, in the order of their declaration. -/
def roverTypeDecls : Array TypeDecl :=
  #[⟨"Rover"⟩, ⟨"Store"⟩, ⟨"Camera"⟩, ⟨"Objective"⟩, ⟨"Rock"⟩, ⟨"Hand"⟩]

/-- The objects of `n` rovers, kind by kind. -/
def roverBlocks (n : ℕ) : List ObjectBlock :=
  [⟨"r", n, ⟨0⟩⟩, ⟨"s", 2 * n, ⟨1⟩⟩, ⟨"c", n, ⟨2⟩⟩, ⟨"o", n, ⟨3⟩⟩, ⟨"x", 2 * n, ⟨4⟩⟩,
    ⟨"h", 2 * n, ⟨5⟩⟩]

/-- The fluents of the rovers, in the order of their declaration. -/
def roverFluentDecls : Array FluentDecl :=
  #[⟨"have_rock_analysis", [⟨0⟩, ⟨4⟩], false⟩, ⟨"communicated_rock_data", [⟨4⟩], false⟩,
    ⟨"full", [⟨1⟩], false⟩, ⟨"ready_to_drop", [⟨1⟩], false⟩, ⟨"calibrated", [⟨2⟩, ⟨3⟩], false⟩,
    ⟨"have_image", [⟨0⟩, ⟨3⟩], false⟩, ⟨"communicated_image_data", [⟨3⟩], false⟩,
    ⟨"store_of", [⟨1⟩, ⟨0⟩], false⟩, ⟨"on_board", [⟨2⟩, ⟨0⟩], false⟩, ⟨"free_h", [⟨5⟩], false⟩,
    ⟨"free_s", [⟨1⟩], true⟩, ⟨"good", [⟨5⟩], false⟩, ⟨"hand_of", [⟨5⟩, ⟨0⟩], false⟩,
    ⟨"ready", [⟨5⟩, ⟨4⟩], false⟩, ⟨"free_c", [⟨2⟩], false⟩]

/-- Declaring the types in an empty universe gives them the numbers of `roverTypeIds`. -/
theorem roverTypes_eq : roverTypes = .ok (roverTypeIds, ⟨roverTypeDecls, #[], #[]⟩) := by
  simp only [roverTypes, Universe.empty]
  iterate 6 rw [Universe.addType_of_new (by simp), ok_bind]
  rfl

/-- Declaring the fluents gives them the numbers of `roverFluentIds`, whatever the objects are. -/
theorem roverFluents_eq (objects : Array ObjectDecl) :
    roverFluents roverTypeIds ⟨roverTypeDecls, objects, #[]⟩ =
      .ok (roverFluentIds, ⟨roverTypeDecls, objects, roverFluentDecls⟩) := by
  simp only [roverFluents]
  iterate 15
    rw [Universe.addFluent_of_new (by simp [roverTypeDecls, roverTypeIds]) (by simp), ok_bind]
  rfl

/-- What `n` rovers declare. -/
def roverUniverse (n : ℕ) : Universe :=
  ⟨roverTypeDecls, ((roverBlocks n).flatMap (·.decls)).toArray, roverFluentDecls⟩

/-- The blocks of objects are told apart by their letters. -/
theorem pairwise_apart_roverBlocks (n : ℕ) : (roverBlocks n).Pairwise ObjectBlock.Apart := by
  have hletters : ((roverBlocks n).map (·.letter)).Pairwise fun letter letter' =>
      letter.length = letter'.length ∧ letter ≠ letter' :=
    (by decide : ["r", "s", "c", "o", "x", "h"].Pairwise _)
  rwa [List.pairwise_map] at hletters

/-- Declaring the objects lists them block by block. -/
theorem roverObjects_eq (n : ℕ) :
    roverObjects roverTypeIds n ⟨roverTypeDecls, #[], #[]⟩ =
      .ok ⟨roverTypeDecls, ((roverBlocks n).flatMap (·.decls)).toArray, #[]⟩ := by
  have htypes : ∀ b ∈ roverBlocks n, roverTypeDecls[b.type.index]?.isSome = true := by
    simp [roverBlocks, roverTypeDecls]
  rw [← foldlM_addNumbered htypes (pairwise_apart_roverBlocks n)]
  simp [roverObjects, roverBlocks, roverTypeIds]

/-! ### What belongs to a rover -/

/-- `object?` of the number at some place of a block. -/
theorem object?_rover {n i j k : ℕ} {b : ObjectBlock} (hb : (roverBlocks n)[j]? = some b)
    (hk : k = (((roverBlocks n).take j).map (·.count)).sum + i) (hi : i < b.count) :
    (roverUniverse n).object? ⟨k⟩ = some ⟨b.letter ++ toString i, b.type⟩ := by
  rw [roverUniverse, Universe.object?, hk, List.getElem?_toArray]
  exact ObjectBlock.getElem?_blocks hb hi

/-- All that belongs to a rover. -/
def objectsOf (kit : RoverKit) : List ObjectId :=
  [kit.rover, kit.camera, kit.objective] ++ kit.stores ++ kit.rocks ++ kit.hands

/-- **What belongs to the rover with a number**, by type and name: the rover itself, a camera and an
objective with this number, and stores, rocks and hands with twice the number and with one more. -/
def belongings (i : ℕ) : List (String × String) :=
  [("Rover", "r" ++ toString i), ("Camera", "c" ++ toString i), ("Objective", "o" ++ toString i)] ++
    [2 * i, 2 * i + 1].flatMap fun k =>
      [("Store", "s" ++ toString k), ("Rock", "x" ++ toString k), ("Hand", "h" ++ toString k)]

/-- The objects of a rover have the types that the fluents and the schemas ask for, by `typeOf?`. -/
structure WellKept (u : Universe) (kit : RoverKit) : Prop where
  rover : u.typeOf? kit.rover = some ⟨0⟩
  camera : u.typeOf? kit.camera = some ⟨2⟩
  objective : u.typeOf? kit.objective = some ⟨3⟩
  stores : ∀ o ∈ kit.stores, u.typeOf? o = some ⟨1⟩
  rocks : ∀ o ∈ kit.rocks, u.typeOf? o = some ⟨4⟩
  hands : ∀ o ∈ kit.hands, u.typeOf? o = some ⟨5⟩

section Kit

variable {n i k : ℕ}

/-- The rover with a number is declared under this number. -/
theorem object?_roverId (hi : i < n) :
    (roverUniverse n).object? ⟨i⟩ = some ⟨"r" ++ toString i, ⟨0⟩⟩ :=
  object?_rover (j := 0) rfl (by simp) hi

theorem object?_storeId (hk : k < 2 * n) :
    (roverUniverse n).object? ⟨n + k⟩ = some ⟨"s" ++ toString k, ⟨1⟩⟩ :=
  object?_rover (j := 1) rfl (by simp [roverBlocks]) hk

theorem object?_cameraId (hi : i < n) :
    (roverUniverse n).object? ⟨3 * n + i⟩ = some ⟨"c" ++ toString i, ⟨2⟩⟩ :=
  object?_rover (j := 2) rfl (by simp [roverBlocks]; omega) hi

theorem object?_objectiveId (hi : i < n) :
    (roverUniverse n).object? ⟨4 * n + i⟩ = some ⟨"o" ++ toString i, ⟨3⟩⟩ :=
  object?_rover (j := 3) rfl (by simp [roverBlocks]; omega) hi

theorem object?_rockId (hk : k < 2 * n) :
    (roverUniverse n).object? ⟨5 * n + k⟩ = some ⟨"x" ++ toString k, ⟨4⟩⟩ :=
  object?_rover (j := 4) rfl (by simp [roverBlocks]; omega) hk

theorem object?_handId (hk : k < 2 * n) :
    (roverUniverse n).object? ⟨7 * n + k⟩ = some ⟨"h" ++ toString k, ⟨5⟩⟩ :=
  object?_rover (j := 5) rfl (by simp [roverBlocks]; omega) hk

/-- **The objects of a rover** are declared as what belongs to it: `object?` finds each under a type
and a name of `belongings`. -/
theorem mem_belongings (hi : i < n) : ∀ o ∈ objectsOf (roverKit n i), ∃ decl,
    (roverUniverse n).object? o = some decl ∧
      ((roverUniverse n).typeName decl.type, decl.name) ∈ belongings i := by
  have hlow : 2 * i < 2 * n := by omega
  have hhigh : 2 * i + 1 < 2 * n := by omega
  simp only [objectsOf, roverKit, List.cons_append, List.nil_append, List.forall_mem_cons,
    Nat.add_assoc, object?_roverId hi, object?_cameraId hi, object?_objectiveId hi,
    object?_storeId hlow, object?_storeId hhigh, object?_rockId hlow, object?_rockId hhigh,
    object?_handId hlow, object?_handId hhigh, Option.some.injEq, exists_eq_left']
  simp [belongings, Universe.typeName, Universe.type?, roverUniverse, roverTypeDecls]

/-- The objects of each rover have the types that are asked for. -/
theorem wellKept_roverKit (hi : i < n) : WellKept (roverUniverse n) (roverKit n i) := by
  have hlow : 2 * i < 2 * n := by omega
  have hhigh : 2 * i + 1 < 2 * n := by omega
  constructor <;> simp [roverKit, Universe.typeOf?, Nat.add_assoc, object?_roverId hi,
    object?_cameraId hi, object?_objectiveId hi, object?_storeId hlow, object?_storeId hhigh,
    object?_rockId hlow, object?_rockId hhigh, object?_handId hlow, object?_handId hhigh]

end Kit

/-! ### The schemas -/

section Schemas

variable {α : Type} [Arithmetic α]

/-- The schemas of the rovers, each with its tuples of objects of one rover. -/
def roverActions (regular : Bool) : List (Schema α × (RoverKit → List (List ObjectId))) :=
  roverSchemas roverTypeIds roverFluentIds regular

/-- Tuples hold objects of one rover only. -/
theorem mem_objectsOf_of_mem {regular : Bool} {kit : RoverKit} :
    ∀ x ∈ roverActions (α := α) regular, ∀ tuple ∈ x.2 kit, ∀ o ∈ tuple, o ∈ objectsOf kit := by
  simp only [roverActions, roverSchemas, List.forall_mem_cons, List.forall_mem_flatMap,
    List.forall_mem_map]
  simp +contextual [objectsOf]

/-- The tuples of `roverActions` suit their schemas. -/
theorem suits_of_wellKept {u : Universe} {kit : RoverKit} (h : WellKept u kit) {regular : Bool} :
    ∀ x ∈ roverActions (α := α) regular, ∀ tuple ∈ x.2 kit, x.1.Suits u tuple := by
  simp +contextual only [roverActions, roverSchemas, List.forall_mem_cons, List.forall_mem_flatMap,
    List.forall_mem_map, Schema.Suits, List.map_cons, List.map_nil, h.rover, h.camera, h.objective,
    h.stores _, h.rocks _, h.hands _]
  cases regular <;>
    simp [sampleSchema, dropSchema, calibrateSchema, turnOnDroppingSchema, turnOnGoodHandSchema,
      turnOnHandSchema, takeImageSchema, communicateSchema, Schema.param, Schema.require,
      Schema.effect, Schema.draw, Schema.uses, roverTypeIds]

/-- `validate` accepts the schemas, whatever the objects are. -/
theorem validate_roverActions (n : ℕ) (regular : Bool) :
    ∀ x ∈ roverActions (α := α) regular, x.1.validate (roverUniverse n) = .ok () := by
  simp only [roverActions, roverSchemas, List.forall_mem_cons]
  cases regular with
  | false => exact ⟨rfl, rfl, rfl, rfl, rfl, rfl, rfl, rfl, rfl, rfl, by simp⟩
  | true => exact ⟨rfl, rfl, rfl, rfl, rfl, rfl, rfl, rfl, rfl, rfl, by simp⟩

/-- The names of the schemas, in the order in which they are added. -/
theorem names_roverActions (regular : Bool) :
    (roverActions (α := α) regular).map (·.1.name) = ["sample_rock_good", "sample_rock", "drop",
      "calibrate", "turn_on_dropping", "turn_on_good_hand", "turn_on_hand", "take_image",
      "communicate_rock_data", "communicate_image_data"] := by
  cases regular <;> rfl

/-! ### The domain -/

/-- What belongs to each of `n` rovers. -/
def roverKits (n : ℕ) : List RoverKit := (List.range n).map (roverKit n)

/-- The goals of the rovers: data of all rocks and images of all objectives are sent home. -/
def roverGoals (n : ℕ) : List GroundFluent :=
  ((roverKits n).flatMap (·.rocks)).map (⟨⟨1⟩, [·]⟩) ++
    (roverKits n).map fun kit => ⟨⟨6⟩, [kit.objective]⟩

/-- The schemas, each with all of its tuples. -/
def roverListing (regular : Bool) (n : ℕ) : List (Schema α × List (List ObjectId)) :=
  (roverActions regular).map fun x => (x.1, (roverKits n).flatMap x.2)

/-- What `n` rovers declare, and what holds initially. -/
def roverDraft (kind : DomainKind) (n : ℕ) : Domain α where
  name := "nasa_rover"
  kind
  declarations := roverUniverse n
  initial := (roverInitial roverFluentIds (roverKits n)).map (·, true)

/-- **The domain of `n` rovers**, written down. -/
def roverDomain (kind : DomainKind) (deadline n : ℕ) : Domain α :=
  { roverDraft (α := α) kind n with
    schemas := (roverActions (decide (kind ≠ .combination))).map Prod.fst
    goals := (roverGoals n).map (·, true)
    deadline
    grounding := some ⟨(roverListing (α := α) (decide (kind ≠ .combination)) n).zipIdx.map fun x =>
      (⟨x.2⟩, x.1.2)⟩
    sizeParams := [n] }

variable {kind : DomainKind} {deadline n : ℕ}

/-- All schemas of the domain are restricted to the tuples of `roverListing`. -/
theorem restricts_roverDomain : (roverDomain (α := α) kind deadline n).Restricts
    (roverListing (decide (kind ≠ .combination)) n) where
  schemas := by
    rw [roverDomain, roverListing, List.map_map]
    rfl
  grounding := rfl

/-- The objects of the rovers of the domain have the types that are asked for. -/
theorem wellKept_of_mem {kit : RoverKit} (h : kit ∈ roverKits n) :
    WellKept (roverUniverse n) kit := by
  obtain ⟨i, hi, rfl⟩ := List.mem_map.mp h
  exact wellKept_roverKit (List.mem_range.mp hi)

/-- What holds initially is well-typed. -/
theorem wellTyped_roverInitial :
    ∀ f ∈ roverInitial roverFluentIds (roverKits n), (roverUniverse n).WellTyped f := by
  simp only [roverInitial, List.forall_mem_append, List.forall_mem_flatMap, List.forall_mem_map]
  refine ⟨⟨fun kit hkit => ⟨⟨fun o ho => ?_, fun o ho => ?_⟩, ?_⟩, fun kit hkit x hx => ?_⟩,
    fun kit hkit => ?_⟩
  all_goals have hkept := wellKept_of_mem hkit
  · exact ⟨_, rfl, congrArg₂ (fun type type' => [type, type']) (hkept.stores o ho) hkept.rover⟩
  · exact ⟨_, rfl, congrArg₂ (fun type type' => [type, type']) (hkept.hands o ho) hkept.rover⟩
  · rw [List.forall_mem_singleton]
    exact ⟨_, rfl, congrArg₂ (fun type type' => [type, type']) hkept.camera hkept.rover⟩
  · have hhand := congrArg (fun type => [type]) (hkept.hands x.1 (List.fst_mem_of_mem_zipIdx hx))
    rw [List.forall_mem_cons]
    refine ⟨⟨_, rfl, hhand⟩, ?_⟩
    split
    · rw [List.forall_mem_singleton]
      exact ⟨_, rfl, hhand⟩
    · exact List.forall_mem_nil _
  · exact ⟨_, rfl, congrArg (fun type => [type]) hkept.camera⟩

/-- The goals are well-typed. -/
theorem wellTyped_roverGoals : ∀ f ∈ roverGoals n, (roverUniverse n).WellTyped f := by
  simp only [roverGoals, List.forall_mem_append, List.forall_mem_flatMap, List.forall_mem_map]
  constructor
  · intro kit hkit o ho
    exact ⟨_, rfl, congrArg (fun type => [type]) ((wellKept_of_mem hkit).rocks o ho)⟩
  · intro kit hkit
    exact ⟨_, rfl, congrArg (fun type => [type]) (wellKept_of_mem hkit).objective⟩

/-- **The domain of the rovers is accepted** by `build`. -/
theorem build_roverDomain : (roverDomain (α := α) kind deadline n).build =
    .ok (roverDomain kind deadline n) := by
  have hvalues : ∀ x ∈ (roverDomain (α := α) kind deadline n).initial,
      (roverUniverse n).WellTyped x.1 :=
    List.forall_mem_map.mpr wellTyped_roverInitial
  have hgoals : ∀ x ∈ (roverDomain (α := α) kind deadline n).goals,
      (roverUniverse n).WellTyped x.1 :=
    List.forall_mem_map.mpr wellTyped_roverGoals
  have hschemas : ∀ s ∈ (roverDomain (α := α) kind deadline n).schemas,
      s.validate (roverUniverse n) = .ok () :=
    List.forall_mem_map.mpr (validate_roverActions n _)
  refine Domain.build_eq_ok_iff.mpr ⟨bind_eq_ok_iff.mpr ⟨(), ?_, ?_⟩, rfl⟩
  · exact Domain.forM_checkSignature_eq_ok_iff.mpr ⟨hvalues, hgoals⟩
  · exact bind_eq_ok_iff.mpr ⟨(), forM_eq_ok_iff.mpr hschemas,
      restricts_roverDomain.checkGrounding_eq_ok⟩

omit [Arithmetic α] in
/-- Authoring begins with what holds initially. -/
theorem foldl_roverInitial : (roverInitial roverFluentIds (roverKits n)).foldl
    (fun d fluent => d.addInitial fluent true)
    ({ Domain.named "nasa_rover" kind with declarations := roverUniverse n } : Domain α) =
    roverDraft kind n := Domain.foldl_addInitial (fun fluent => fluent) _ _

/-- The schemas are added with their tuples. -/
theorem foldlM_roverActions : (roverActions (decide (kind ≠ .combination))).foldlM
    (fun d (x : Schema α × (RoverKit → List (List ObjectId))) => do
      let (id, d) ← d.addSchema x.1
      return d.addGrounding id ((roverKits n).flatMap x.2)) (roverDraft kind n) =
    .ok { roverDomain (α := α) kind 0 n with goals := [], sizeParams := [] } := by
  have hnames : (((roverActions (α := α) (decide (kind ≠ .combination))).map (·.1)).map
      (·.name)).Nodup := by
    rw [List.map_map]
    exact (names_roverActions (α := α) (decide (kind ≠ .combination))).symm ▸ (by decide)
  have hsome : roverActions (α := α) (decide (kind ≠ .combination)) ≠ [] := List.cons_ne_nil _ _
  have hadds : Domain.AddsRestricted
      (fun d (x : Schema α × (RoverKit → List (List ObjectId))) => do
        let (id, d) ← d.addSchema x.1
        return d.addGrounding id ((roverKits n).flatMap x.2))
      fun x => (x.1, (roverKits n).flatMap x.2) := fun _ _ => rfl
  rw [Domain.foldlM_addRestricted_of_empty hadds hsome hnames rfl rfl, roverDomain, roverListing,
    List.zipIdx_map, List.map_map]
  rfl

omit [Arithmetic α] in
/-- The goals are added at the end. -/
theorem foldl_roverGoals (d : Domain α) : (roverKits n).foldl
    (fun d kit => d.addGoal ⟨⟨6⟩, [kit.objective]⟩ true)
    (((roverKits n).flatMap (·.rocks)).foldl (fun d rock => d.addGoal ⟨⟨1⟩, [rock]⟩ true) d) =
    { d with goals := d.goals ++ (roverGoals n).map (·, true) } := by
  rw [Domain.foldl_addGoal (fun rock => ⟨⟨1⟩, [rock]⟩),
    Domain.foldl_addGoal (fun kit : RoverKit => ⟨⟨6⟩, [kit.objective]⟩)]
  simp only [roverGoals, List.map_append, List.map_map, List.append_assoc]
  rfl

/-- **The rovers are authored without an error**, for any number of them: `rover` gives
`roverDomain`. -/
theorem rover_eq : rover (α := α) kind deadline n = .ok (roverDomain kind deadline n) := by
  have hdeclared : roverFluents roverTypeIds
      ⟨roverTypeDecls, ((roverBlocks n).flatMap (·.decls)).toArray, #[]⟩ =
      .ok (roverFluentIds, roverUniverse n) := roverFluents_eq _
  have hactions := (congrArg (fun d => (roverActions _).foldlM _ d) foldl_roverInitial).trans
    (@foldlM_roverActions α _ kind n)
  have hbuild := fun d : Domain α => congrArg
    (fun d : Domain α => ({ d.withDeadline deadline with sizeParams := [n] } : Domain α).build)
    (foldl_roverGoals (n := n) d)
  exact bind_eq_ok_iff.mpr ⟨_, roverTypes_eq, bind_eq_ok_iff.mpr ⟨_, roverObjects_eq n,
    bind_eq_ok_iff.mpr ⟨_, hdeclared, bind_eq_ok_iff.mpr ⟨_, hactions,
      (hbuild _).trans build_roverDomain⟩⟩⟩⟩

end Schemas

end DurativePlanning.Reference
