/-!
# The Arithmetic of Chances and Returns

Probabilities, rewards and search statistics are computed by code that never fixes its numbers.
Everything the code asks of them is collected here: `Arithmetic` for probabilities and rewards, and
`SearchArithmetic` for the scores of a tree search.

Two readings matter. Over `Float` the definitions run, with the rounding and the special values of
doubles; over an exact ordered field the same definitions can be reasoned about, and there
`isFinite` is true of every number.

* `Arithmetic.ratio`: the quotient of two counts, the form in which every constant is written.
-/

namespace DurativePlanning

/-- The operations that probabilities, rewards and draws need. `Float` has them with rounding, and
the exact instances of the proofs have them without. -/
class Arithmetic (α : Type) where
  [toZero : Zero α]
  [toOne : One α]
  [toAdd : Add α]
  [toSub : Sub α]
  [toMul : Mul α]
  [toDiv : Div α]
  [toLT : LT α]
  [toLE : LE α]
  /-- The order is decided by the arithmetic itself. -/
  [decidableLT : DecidableLT α]
  /-- The weak order is a test of its own: of two incomparable numbers neither order holds. -/
  [decidableLE : DecidableLE α]
  /-- The number nearest to a count. -/
  ofNat : Nat → α
  /-- Whether a number is neither infinite nor undefined. -/
  isFinite : α → Bool
  /-- The integer part of a number that is not negative; a negative number gives zero. -/
  truncate : α → Nat

namespace Arithmetic

variable {α : Type} [Arithmetic α]

-- A type with operations of its own keeps them: these are found last.
instance (priority := low) zero : Zero α := toZero
instance (priority := low) one : One α := toOne
instance (priority := low) add : Add α := toAdd
instance (priority := low) sub : Sub α := toSub
instance (priority := low) mul : Mul α := toMul
instance (priority := low) div : Div α := toDiv
instance (priority := low) lt : LT α := toLT
instance (priority := low) le : LE α := toLE
instance (priority := low) decLT : DecidableLT α := decidableLT
instance (priority := low) decLE : DecidableLE α := decidableLE

/-- The quotient of two counts, each of which is made a number by `ofNat` first. -/
def ratio (numerator denominator : Nat) : α := ofNat numerator / ofNat denominator

/-- Finite and not negative; with `isFinite` this refuses what is not a number and plus infinity. -/
def isNonNegative (x : α) : Bool := isFinite x && decide (0 ≤ x)

/-- Finite and positive. -/
def isPositive (x : α) : Bool := isFinite x && decide (0 < x)

/-- `isNonNegative`, and at most one. -/
def isUnit (x : α) : Bool := isFinite x && decide (0 ≤ x) && decide (x ≤ 1)

end Arithmetic

/-- The operations that the scores of a tree search need on top of `Arithmetic`. -/
class SearchArithmetic (α : Type) extends Arithmetic α where
  /-- The natural logarithm. -/
  ln : α → α
  /-- The square root of a number that is not negative. -/
  sqrt : α → α
  /-- What is reported as the best of some returns when each of them is undefined or below every
  finite number; over an exact field that does not happen. -/
  lowest : α

namespace SearchArithmetic

variable {α : Type} [SearchArithmetic α]

/-- Whether a number lies above minus infinity: it `isFinite`, or it is plus infinity. -/
def aboveAllBounds (x : α) : Bool := Arithmetic.isFinite x || decide (0 < x)

/-- Whether a number lies below plus infinity: it `isFinite`, or it is minus infinity. -/
def belowAllBounds (x : α) : Bool := Arithmetic.isFinite x || decide (x < 0)

end SearchArithmetic

/-- Doubles, rounded to nearest after every operation. -/
instance : Arithmetic Float where
  toZero := ⟨0.0⟩
  toOne := ⟨1.0⟩
  decidableLT := Float.decLt
  decidableLE := Float.decLe
  ofNat := Float.ofNat
  isFinite := Float.isFinite
  truncate x := x.toUInt64.toNat

instance : SearchArithmetic Float where
  ln := Float.log
  sqrt := Float.sqrt
  lowest := -1.0 / 0.0

end DurativePlanning
