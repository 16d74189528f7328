/-!
# Doubles as Fractions

A finite double is a whole significand times a power of two. `Binary.ofFloat` reads the sixty-four
bits of a double into that form, and everything that has to be exact (decimal text, rounding to
nanoseconds) is computed from it in whole numbers.

* `Binary.numerator`, `Binary.denominator`: the magnitude as a quotient of two whole numbers.
* `roundDiv`: a quotient of whole numbers rounded to nearest; a `Tie` says where a half goes.
-/

namespace DurativePlanning

/-- A double taken apart. The value of `finite negative m e` is `m * 2 ^ e`, with a minus sign when
`negative`. -/
inductive Binary where
  | undefined
  | infinite (negative : Bool)
  | finite (negative : Bool) (significand : Nat) (exponent : Int)
  deriving DecidableEq, Repr

namespace Binary

/-- The parts of a double, read off its bits: one sign bit, eleven bits of exponent, and fifty-two
of fraction, to which numbers with a non-zero exponent field add a leading one. -/
def ofFloat (x : Float) : Binary :=
  let bits := x.toBits.toNat
  let negative := decide (1 <<< 63 ≤ bits)
  let field : Nat := (bits >>> 52) % 2048
  let fraction : Nat := bits % (1 <<< 52)
  if field = 2047 then
    if fraction = 0 then infinite negative else undefined
  else if field = 0 then finite negative fraction (-1074)
  else finite negative (1 <<< 52 + fraction) (Int.ofNat field - 1075)

/-- The numerator of `m * 2 ^ e` as a fraction. -/
def numerator (significand : Nat) (exponent : Int) : Nat := significand <<< exponent.toNat

/-- The denominator of `m * 2 ^ e` as a fraction. -/
def denominator (exponent : Int) : Nat := 1 <<< (-exponent).toNat

end Binary

/-- Which of two whole numbers is taken for the number half way between them. -/
inductive Tie where
  /-- The even one. -/
  | even
  /-- The greater one. -/
  | up
  deriving DecidableEq, Repr

/-- The whole number taken for `quotient + 1/2`. -/
def Tie.resolve (quotient : Nat) : Tie → Nat
  | even => quotient + quotient % 2
  | up => quotient + 1

/-- The whole number nearest to `numerator / denominator`; of two equally near ones the one that
`tie` takes. -/
def roundDiv (tie : Tie) (numerator denominator : Nat) : Nat :=
  let quotient := numerator / denominator
  let rest := 2 * (numerator % denominator)
  if rest < denominator then quotient
  else if denominator < rest then quotient + 1
  else tie.resolve quotient

end DurativePlanning
