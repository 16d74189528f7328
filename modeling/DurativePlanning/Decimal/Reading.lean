import DurativePlanning.Decimal.Binary

/-!
# Reading Numbers

A decimal is an optional sign, digits with at most one point among or next to them, and an optional
exponent. It is read as the nearest double.

* `readNat?`: a whole number without a sign.
* `readDecimal?`: a decimal.
* `readNumber?`: a decimal, or one of the words for infinity and for an undefined number.
-/

namespace DurativePlanning

/-- The value of a digit. -/
def digitValue (c : Char) : Nat := c.toNat - '0'.toNat

/-- The number that some digits spell, by their `digitValue`. -/
def ofDigits (digits : List Char) : Nat := digits.foldl (fun n c => 10 * n + digitValue c) 0

/-- The number that a non-empty list of digits spells (`ofDigits`). -/
def readNat? (text : List Char) : Option Nat :=
  if text.isEmpty || !text.all Char.isDigit then none else some (ofDigits text)

/-- A sign, which may be missing, and the rest of a text. -/
def splitSign : List Char → Bool × List Char
  | '+' :: rest => (false, rest)
  | '-' :: rest => (true, rest)
  | text => (false, text)

/-- The double nearest to `mantissa * 10 ^ exponent`. Beyond the range of doubles the exponent does
not matter any more. -/
def nearestDouble (mantissa : Nat) (exponent : Int) : Float :=
  if mantissa = 0 then 0.0 else
  let size : Int := (toString mantissa).length + exponent
  if 310 < size then 1.0 / 0.0
  else if size < -330 then 0.0
  else if 0 ≤ exponent then Float.ofScientific mantissa false exponent.toNat
  else Float.ofScientific mantissa true (-exponent).toNat

/-- The exponent that ends a decimal: nothing, or a letter, an optional sign (`splitSign`) and
digits. -/
def readExponent? : List Char → Option Int
  | [] => some 0
  | c :: rest =>
    if c = 'e' ∨ c = 'E' then
      let (negative, digits) := splitSign rest
      (readNat? digits).map fun n => if negative then -(n : Int) else n
    else none

/-- The magnitude that a decimal without a sign spells. -/
def readMagnitude? (text : List Char) : Option Float :=
  let whole := text.takeWhile Char.isDigit
  let rest := text.dropWhile Char.isDigit
  let (places, rest) := match rest with
    | '.' :: rest => (rest.takeWhile Char.isDigit, rest.dropWhile Char.isDigit)
    | rest => ([], rest)
  if whole.isEmpty && places.isEmpty then none
  else (readExponent? rest).map fun exponent =>
    nearestDouble (ofDigits (whole ++ places)) (exponent - places.length)

/-- A number with the sign of a text put before it. -/
def withSign (negative : Bool) (x : Float) : Float := if negative then -x else x

/-- The double nearest to a decimal: a sign, and what `readMagnitude?` reads. -/
def readDecimal? (text : String) : Option Float :=
  let (negative, rest) := splitSign text.toList
  (readMagnitude? rest).map (withSign negative)

/-- A number: a decimal (`readDecimal?`), or a word in letters of either case. -/
def readNumber? (text : String) : Option Float :=
  let (negative, rest) := splitSign text.toList
  let word := String.ofList (rest.map Char.toLower)
  if word = "inf" ∨ word = "infinity" then some (withSign negative (1.0 / 0.0))
  else if word = "nan" then some (0.0 / 0.0)
  else (readMagnitude? rest).map (withSign negative)

end DurativePlanning
