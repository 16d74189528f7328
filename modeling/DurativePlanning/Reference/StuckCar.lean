import DurativePlanning.Domain.Validation

/-!
# The Stuck Car

A car has to come out of the mud. Two people can push, step on the gas, or both; a rock under the
car helps, a good one more than a bad one; and most of it makes tired. Hands and legs are resources.

* `Reference.stuckCar`: the domain.
-/

namespace DurativePlanning.Reference

open Arithmetic (ratio)

variable {α : Type} [Arithmetic α]

/-- Whether somebody gets tired. -/
def tiredLaw : Law α :=
  .fixed [⟨ratio 4 10, [(0, true)]⟩, ⟨ratio 6 10, [(0, false)]⟩]

/-- One target becomes true with a probability, and is left alone otherwise
(`Outcome.unchanged`). -/
def chance (p : α) : List (Outcome α) := [⟨p, [(0, true)]⟩, .unchanged (1 - p)]

/-- Whether the car comes out, given the probabilities with a `bad` rock, with a `good` rock and
without a rock. A car that is out stays out. -/
def pushLaw (out underBad underGood : Template) (bad good none : α) : Law α :=
  .conditional
    [⟨[(out, true)], chance 1⟩, ⟨[(underBad, true)], chance bad⟩,
      ⟨[(underGood, true)], chance good⟩]
    (chance none)

/-- The stuck car: six schemas, of which only `rest` may not be combined, and the goal that the car
is out. -/
def stuckCar (kind : DomainKind) (deadline : Nat) : Except ModelError (Domain α) := do
  let (carType, u) ← Universe.empty.addType "Car"
  let (pedalType, u) ← u.addType "GasPedal"
  let (rockType, u) ← u.addType "Rock"
  let (bodyType, u) ← u.addType "BodyPart"
  let (_, u) ← u.addObject "car" carType
  let (_, u) ← u.addObject "gasPedal" pedalType
  let (bad, u) ← u.addObject "bad" rockType
  let (good, u) ← u.addObject "good" rockType
  let (hands, u) ← u.addObject "hands" bodyType
  let (legs, u) ← u.addObject "legs" bodyType
  let (carOut, u) ← u.addFluent "car_out" [] false
  let (tired, u) ← u.addFluent "tired" [] false
  let (gotRock, u) ← u.addFluent "got_rock" [rockType] false
  let (free, u) ← u.addFluent "free" [bodyType] true
  let (rockUnderCar, u) ← u.addFluent "rock_under_car" [rockType] false
  let (_, u) ← u.addFluent "gas_pressed" [] false
  let freeHands := Template.constant free [hands]
  let freeLegs := Template.constant free [legs]
  let isTired := Template.nullary tired
  let isOut := Template.nullary carOut
  let push := pushLaw (α := α) isOut (.constant rockUnderCar [bad]) (.constant rockUnderCar [good])
  let rest : Schema α := { name := "rest", duration := 1 }
  let rest := (((rest.require .overall freeHands true).require .overall freeLegs true).effect
    .atEnd isTired false).alone
  let placeRock : Schema α := { name := "place_rock", duration := 2 }
  let placeRock := placeRock.param "rock" rockType
  let placeRock := placeRock.require .overall ⟨gotRock, [.param 0]⟩ true
  let placeRock := placeRock.require .atStart isTired false
  let placeRock := (placeRock.uses freeHands).uses freeLegs
  let placeRock := placeRock.effect .atEnd ⟨rockUnderCar, [.param 0]⟩ true
  let placeRock := placeRock.effect .atEnd ⟨gotRock, [.param 0]⟩ false
  let placeRock := placeRock.draw [isTired] tiredLaw
  let search : Schema α := { name := "search", duration := 2 }
  let search := (search.require .atStart isTired false).uses freeHands
  let search := search.draw [.constant gotRock [bad], .constant gotRock [good]]
    (.fixed [⟨ratio 1 10, [(0, true)]⟩, ⟨ratio 9 10, [(1, true)]⟩])
  let pushCar : Schema α := { name := "push_car", duration := 2 }
  let pushCar := (pushCar.require .atStart isTired false).uses freeHands
  let pushCar := pushCar.draw [isOut] (push (ratio 3 10) (ratio 48 100) (ratio 1 10))
  let pushCar := pushCar.draw [isTired] tiredLaw
  let pushGas : Schema α := { name := "push_gas", duration := 2 }
  let pushGas := (pushGas.require .atStart isTired false).uses freeLegs
  let pushGas := pushGas.draw [isOut] (push (ratio 2 10) (ratio 4 10) (ratio 1 10))
  let pushBoth : Schema α := { name := "push_car_gas", duration := 4 }
  let pushBoth := ((pushBoth.require .atStart isTired false).uses freeHands).uses freeLegs
  let pushBoth := pushBoth.draw [isOut] (push (ratio 4 10) (ratio 9 10) (ratio 2 10))
  let pushBoth := pushBoth.draw [isTired] tiredLaw
  let domain : Domain α := { Domain.named "stuck_car_1o" kind with declarations := u }
  let domain ← [rest, placeRock, search, pushCar, pushGas, pushBoth].foldlM
    (fun d s => (·.2) <$> d.addSchema s) domain
  ((domain.addGoal ⟨carOut, []⟩ true).withDeadline deadline).build

end DurativePlanning.Reference
