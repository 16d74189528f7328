import DurativePlanning.Decimal.Binary

/-!
# Spans of Real Time

Time limits are given in seconds and kept in whole nanoseconds. A number of seconds that is
negative, undefined, or too large for sixty-four bits of seconds has no such form.

* `nanosecondsOf?`: the nanoseconds nearest to a number of seconds.
-/

namespace DurativePlanning

/-- The nanoseconds nearest to a number of seconds, a half going to the even neighbour. -/
def nanosecondsOf? (seconds : Float) : Option Nat :=
  match Binary.ofFloat seconds with
  | .finite negative significand exponent =>
    if negative ∧ significand ≠ 0 then none else
    let nanoseconds := roundDiv .even (Binary.numerator significand exponent * 1000000000)
      (Binary.denominator exponent)
    if nanoseconds < UInt64.size * 1000000000 then some nanoseconds else none
  | _ => none

/-- A number of nanoseconds in seconds. -/
def secondsOf (nanoseconds : Nat) : Float :=
  Float.ofNat (nanoseconds / 1000000000) + Float.ofNat (nanoseconds % 1000000000) / 1000000000.0

end DurativePlanning
