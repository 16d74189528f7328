import DurativePlanning.Domain.Validation

/-!
# The Rovers

Rovers sample rocks and take images of objectives, and send the data home. Each rover owns two
stores, two hands (the even one is good), one camera and one objective, and sees to two rocks.
Actions are applied only to what belongs to one rover.

* `Reference.rover`: the domain, for some number of rovers.
-/

namespace DurativePlanning.Reference

open Arithmetic (ratio)

variable {α : Type} [Arithmetic α]

/-- The types of the rover domain. -/
structure RoverTypes where
  rover : TypeId
  store : TypeId
  camera : TypeId
  objective : TypeId
  rock : TypeId
  hand : TypeId

/-- The fluents of the rover domain. -/
structure RoverFluents where
  haveRockAnalysis : FluentId
  communicatedRockData : FluentId
  full : FluentId
  readyToDrop : FluentId
  calibrated : FluentId
  haveImage : FluentId
  communicatedImageData : FluentId
  storeOf : FluentId
  onBoard : FluentId
  freeHand : FluentId
  freeStore : FluentId
  good : FluentId
  handOf : FluentId
  ready : FluentId
  freeCamera : FluentId

/-- What belongs to one rover. -/
structure RoverKit where
  rover : ObjectId
  stores : List ObjectId
  camera : ObjectId
  objective : ObjectId
  rocks : List ObjectId
  hands : List ObjectId

/-! ### Laws -/

/-- Sampling succeeds, fails and frees the hand, or does nothing (`Outcome.unchanged`). -/
def sampleLaw (success release nothing : α) : Law α :=
  .fixed
    [⟨success, [(0, true), (1, true), (2, true), (3, false)]⟩,
     ⟨release, [(3, false), (2, true)]⟩,
     .unchanged nothing]

/-! ### Schemas -/

/-- Sampling a rock with a hand that is good, or that is not. Unless stores are left out of it, the
store is held meanwhile. -/
def sampleSchema (ty : RoverTypes) (f : RoverFluents) (name : String) (duration : Nat)
    (goodHand holdsStore : Bool) (law : Law α) : Schema α :=
  let rover := Term.param 0
  let store := Term.param 1
  let rock := Term.param 2
  let hand := Term.param 3
  let s : Schema α := { name, duration }
  let s := (((s.param "rover" ty.rover).param "store" ty.store).param "rock" ty.rock).param
    "hand" ty.hand
  let s := s.require .overall ⟨f.storeOf, [store, rover]⟩ true
  let s := s.require .overall ⟨f.full, [store]⟩ false
  let s := s.require .overall ⟨f.readyToDrop, [store]⟩ false
  let s := s.require .overall ⟨f.ready, [hand, rock]⟩ true
  let s := s.require .overall ⟨f.handOf, [hand, rover]⟩ true
  let s := s.require .overall ⟨f.good, [hand]⟩ goodHand
  let s := if holdsStore then s.uses ⟨f.freeStore, [store]⟩ else s
  s.draw [⟨f.full, [store]⟩, ⟨f.haveRockAnalysis, [rover, rock]⟩, ⟨f.freeHand, [hand]⟩,
    ⟨f.ready, [hand, rock]⟩] law

/-- Dropping what is in a store. -/
def dropSchema (ty : RoverTypes) (f : RoverFluents) : Schema α :=
  let store := Term.param 0
  let s : Schema α := { name := "drop", duration := 3 }
  let s := (s.param "store" ty.store).require .overall ⟨f.readyToDrop, [store]⟩ true
  (s.effect .atEnd ⟨f.full, [store]⟩ false).effect .atEnd ⟨f.readyToDrop, [store]⟩ false

/-- Calibrating the camera of a rover on an objective. -/
def calibrateSchema (ty : RoverTypes) (f : RoverFluents) : Schema α :=
  let s : Schema α := { name := "calibrate", duration := 4 }
  let s := (s.param "camera" ty.camera).param "objective" ty.objective
  s.effect .atEnd ⟨f.calibrated, [.param 0, .param 1]⟩ true

/-- Getting a store ready to be dropped; unless stores are left out of it, the store is held
meanwhile. -/
def turnOnDroppingSchema (ty : RoverTypes) (f : RoverFluents) (holdsStore : Bool) : Schema α :=
  let store := Term.param 0
  let s : Schema α := { name := "turn_on_dropping", duration := 1 }
  let s := s.param "store" ty.store
  let s := if holdsStore then s.uses ⟨f.freeStore, [store]⟩ else s
  s.effect .atEnd ⟨f.readyToDrop, [store]⟩ true

/-- Getting a good hand ready. The hand is taken at the start, or else only at the end. -/
def turnOnGoodHandSchema (ty : RoverTypes) (f : RoverFluents) (atOnce : Bool) : Schema α :=
  let hand := Term.param 0
  let rock := Term.param 1
  let free : Template := ⟨f.freeHand, [hand]⟩
  let s : Schema α := { name := "turn_on_good_hand", duration := 1 }
  let s := (s.param "hand" ty.hand).param "rock" ty.rock
  let s := s.require .overall ⟨f.good, [hand]⟩ true
  let s := if atOnce then (s.require .atStart free true).effect .atStart free false
    else (s.require .overall free true).effect .atEnd free false
  s.effect .atEnd ⟨f.ready, [hand, rock]⟩ true

/-- Getting another hand ready takes no time and may fail. -/
def turnOnHandSchema (ty : RoverTypes) (f : RoverFluents) : Schema α :=
  let hand := Term.param 0
  let rock := Term.param 1
  let s : Schema α := { name := "turn_on_hand", duration := 0 }
  let s := (s.param "hand" ty.hand).param "rock" ty.rock
  let s := s.require .atStart ⟨f.freeHand, [hand]⟩ true
  let s := s.require .atStart ⟨f.good, [hand]⟩ false
  s.draw [⟨f.freeHand, [hand]⟩, ⟨f.ready, [hand, rock]⟩]
    (.fixed [⟨ratio 8 10, [(0, false), (1, true)]⟩, .unchanged (ratio 2 10)])

/-- Taking an image with a camera that is calibrated. -/
def takeImageSchema (ty : RoverTypes) (f : RoverFluents) : Schema α :=
  let rover := Term.param 0
  let objective := Term.param 1
  let camera := Term.param 2
  let calibrated : Template := ⟨f.calibrated, [camera, objective]⟩
  let s : Schema α := { name := "take_image", duration := 6 }
  let s := ((s.param "rover" ty.rover).param "objective" ty.objective).param "camera" ty.camera
  let s := s.require .overall calibrated true
  let s := s.require .overall ⟨f.onBoard, [camera, rover]⟩ true
  s.draw [⟨f.haveImage, [rover, objective]⟩, calibrated]
    (.fixed [⟨ratio 9 10, [(0, true), (1, false)]⟩, ⟨ratio 1 10, [(0, false), (1, false)]⟩])

/-- Sending home what a rover has about a subject. -/
def communicateSchema (name : String) (rover subject : TypeId) (held communicated : FluentId) :
    Schema α :=
  let s : Schema α := { name, duration := 2 }
  let s := (s.param "rover" rover).param "subject" subject
  let s := s.require .overall ⟨held, [.param 0, .param 1]⟩ true
  s.draw [⟨communicated, [.param 1]⟩]
    (.fixed [⟨ratio 6 10, [(0, true)]⟩, ⟨ratio 4 10, [(0, false)]⟩])

/-! ### Declarations -/

/-- Objects of one type, named by a letter and a number, declared with `addObject` up to the first
refusal. -/
def addNumbered (u : Universe) (letter : String) (count : Nat) (type : TypeId) :
    Except ModelError Universe :=
  (List.range count).foldlM (fun u i => (·.2) <$> u.addObject (letter ++ toString i) type) u

/-- The six types, declared in the empty universe. -/
def roverTypes : Except ModelError (RoverTypes × Universe) := do
  let (rover, u) ← Universe.empty.addType "Rover"
  let (store, u) ← u.addType "Store"
  let (camera, u) ← u.addType "Camera"
  let (objective, u) ← u.addType "Objective"
  let (rock, u) ← u.addType "Rock"
  let (hand, u) ← u.addType "Hand"
  return (⟨rover, store, camera, objective, rock, hand⟩, u)

/-- The objects of `n` rovers, kind by kind. -/
def roverObjects (ty : RoverTypes) (n : Nat) (u : Universe) : Except ModelError Universe := do
  let u ← addNumbered u "r" n ty.rover
  let u ← addNumbered u "s" (2 * n) ty.store
  let u ← addNumbered u "c" n ty.camera
  let u ← addNumbered u "o" n ty.objective
  let u ← addNumbered u "x" (2 * n) ty.rock
  addNumbered u "h" (2 * n) ty.hand

/-- What belongs to the rover with a number, out of `n`. -/
def roverKit (n i : Nat) : RoverKit where
  rover := ⟨i⟩
  stores := [⟨n + 2 * i⟩, ⟨n + 2 * i + 1⟩]
  camera := ⟨3 * n + i⟩
  objective := ⟨4 * n + i⟩
  rocks := [⟨5 * n + 2 * i⟩, ⟨5 * n + 2 * i + 1⟩]
  hands := [⟨7 * n + 2 * i⟩, ⟨7 * n + 2 * i + 1⟩]

/-- The fifteen fluents over these types. -/
def roverFluents (ty : RoverTypes) (u : Universe) :
    Except ModelError (RoverFluents × Universe) := do
  let (haveRockAnalysis, u) ← u.addFluent "have_rock_analysis" [ty.rover, ty.rock] false
  let (communicatedRockData, u) ← u.addFluent "communicated_rock_data" [ty.rock] false
  let (full, u) ← u.addFluent "full" [ty.store] false
  let (readyToDrop, u) ← u.addFluent "ready_to_drop" [ty.store] false
  let (calibrated, u) ← u.addFluent "calibrated" [ty.camera, ty.objective] false
  let (haveImage, u) ← u.addFluent "have_image" [ty.rover, ty.objective] false
  let (communicatedImageData, u) ← u.addFluent "communicated_image_data" [ty.objective] false
  let (storeOf, u) ← u.addFluent "store_of" [ty.store, ty.rover] false
  let (onBoard, u) ← u.addFluent "on_board" [ty.camera, ty.rover] false
  let (freeHand, u) ← u.addFluent "free_h" [ty.hand] false
  let (freeStore, u) ← u.addFluent "free_s" [ty.store] true
  let (good, u) ← u.addFluent "good" [ty.hand] false
  let (handOf, u) ← u.addFluent "hand_of" [ty.hand, ty.rover] false
  let (ready, u) ← u.addFluent "ready" [ty.hand, ty.rock] false
  let (freeCamera, u) ← u.addFluent "free_c" [ty.camera] false
  return (⟨haveRockAnalysis, communicatedRockData, full, readyToDrop, calibrated, haveImage,
    communicatedImageData, storeOf, onBoard, freeHand, freeStore, good, handOf, ready,
    freeCamera⟩, u)

/-! ### The domain -/

/-- What holds initially: who owns what, then that hands are free and which are good, then that
cameras are free. -/
def roverInitial (f : RoverFluents) (kits : List RoverKit) : List GroundFluent :=
  (kits.flatMap fun kit =>
    kit.stores.map (⟨f.storeOf, [·, kit.rover]⟩) ++ kit.hands.map (⟨f.handOf, [·, kit.rover]⟩) ++
      [⟨f.onBoard, [kit.camera, kit.rover]⟩]) ++
  (kits.flatMap fun kit =>
    kit.hands.zipIdx.flatMap fun (hand, i) =>
      ⟨f.freeHand, [hand]⟩ :: if i = 0 then [⟨f.good, [hand]⟩] else []) ++
  kits.map fun kit => ⟨f.freeCamera, [kit.camera]⟩

/-- The schemas, each with its tuples of objects of one rover (`RoverKit`). -/
def roverSchemas (ty : RoverTypes) (f : RoverFluents) (regular : Bool) :
    List (Schema α × (RoverKit → List (List ObjectId))) :=
  let sampling (kit : RoverKit) := kit.stores.flatMap fun store =>
    kit.rocks.flatMap fun rock => kit.hands.map fun hand => [kit.rover, store, rock, hand]
  let storing (kit : RoverKit) := kit.stores.map ([·])
  let handling (kit : RoverKit) :=
    kit.hands.flatMap fun hand => kit.rocks.map fun rock => [hand, rock]
  [(sampleSchema ty f "sample_rock_good" 5 true regular
      (sampleLaw (ratio 9 10) (ratio 51 1000) (ratio 49 1000)), sampling),
   (sampleSchema ty f "sample_rock" 10 false regular
      (sampleLaw (ratio 7 10) (ratio 5 100) (ratio 25 100)), sampling),
   (dropSchema ty f, storing),
   (calibrateSchema ty f, fun kit => [[kit.camera, kit.objective]]),
   (turnOnDroppingSchema ty f regular, storing),
   (turnOnGoodHandSchema ty f regular, handling),
   (turnOnHandSchema ty f, handling),
   (takeImageSchema ty f, fun kit => [[kit.rover, kit.objective, kit.camera]]),
   (communicateSchema "communicate_rock_data" ty.rover ty.rock f.haveRockAnalysis
      f.communicatedRockData, fun kit => kit.rocks.map fun rock => [kit.rover, rock]),
   (communicateSchema "communicate_image_data" ty.rover ty.objective f.haveImage
      f.communicatedImageData, fun kit => [[kit.rover, kit.objective]])]

/-- The domain of `n` rovers. -/
def rover (kind : DomainKind) (deadline n : Nat) : Except ModelError (Domain α) := do
  let (ty, u) ← roverTypes
  let u ← roverObjects ty n u
  let (f, u) ← roverFluents ty u
  let kits := (List.range n).map (roverKit n)
  let domain : Domain α := { Domain.named "nasa_rover" kind with declarations := u }
  let domain := (roverInitial f kits).foldl (fun d fluent => d.addInitial fluent true) domain
  let domain ← (roverSchemas ty f (kind ≠ .combination)).foldlM (fun d (s, tuples) => do
    let (id, d) ← d.addSchema s
    return d.addGrounding id (kits.flatMap tuples)) domain
  let rocks := kits.flatMap (·.rocks)
  let domain := rocks.foldl (fun d rock => d.addGoal ⟨f.communicatedRockData, [rock]⟩ true) domain
  let domain := kits.foldl
    (fun d kit => d.addGoal ⟨f.communicatedImageData, [kit.objective]⟩ true) domain
  ({ domain.withDeadline deadline with sizeParams := [n] }).build

end DurativePlanning.Reference
