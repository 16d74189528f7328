import DurativePlanning.Decimal.Shortest

/-!
# Laying out a Number

The digits of a number come from `Shortest`; how they are set down is a matter of the place where
they appear. A `Layout` collects those decisions, and the three layouts in use are the values
`message`, `document` and `report`.

* `Layout.text`: the text of a double under a layout.
* `fixed`: a double with a fixed number of places, rounded to nearest from its exact value.
-/

namespace DurativePlanning

/-- How numbers are set down in one kind of text; `Layout.text` follows it. -/
structure Layout where
  /-- Which of two equally near decimals with the fewest digits is written. -/
  tie : Tie
  /-- Whether numbers of any size are written out in full. -/
  alwaysPositional : Bool
  /-- Text added to a whole number. -/
  wholeMark : String
  /-- Sign of an exponent that is not negative. -/
  positiveExponent : String
  undefined : String
  infinite : String
  negativeInfinite : String

namespace Layout

/-- Numbers inside messages: all digits, no exponent, nothing after a whole number; a tie goes
up. -/
def message : Layout := ⟨.up, true, "", "", "NaN", "inf", "-inf"⟩

/-- Numbers in documents: whole numbers keep a `.0`, very large and very small ones an exponent; a
tie goes to the even digit. -/
def document : Layout := ⟨.even, false, ".0", "", ".nan", ".inf", "-.inf"⟩

/-- Numbers in reports: as in documents, with a sign before every exponent (`positiveExponent`); a
number that is not finite has no text of its own there. -/
def report : Layout := ⟨.even, false, ".0", "+", "null", "null", "null"⟩

/-- `count` zeros. -/
def zeros (count : Nat) : String := String.ofList (List.replicate count '0')

/-- A decimal written out: `point` is the place of the decimal point, counted from the first
digit. -/
def positional (layout : Layout) (digits : String) (point : Int) : String :=
  let count : Int := digits.length
  if count ≤ point then digits ++ zeros (point - count).toNat ++ layout.wholeMark
  else if 0 < point then
    String.ofList (digits.toList.take point.toNat) ++ "." ++
      String.ofList (digits.toList.drop point.toNat)
  else "0." ++ zeros (-point).toNat ++ digits

/-- A decimal with one digit before the point and an exponent. -/
def scientific (layout : Layout) (digits : String) (point : Int) : String :=
  let first := String.ofList (digits.toList.take 1)
  let others := String.ofList (digits.toList.drop 1)
  let power := point - 1
  let exponent := if 0 ≤ power then layout.positiveExponent ++ toString power else toString power
  (if others.isEmpty then first else first ++ "." ++ others) ++ "e" ++ exponent

/-- The magnitude `m * 2 ^ e` under a layout: written out while its point lies at most sixteen
places after the first digit and fewer than five zeros follow the point. -/
def magnitude (layout : Layout) (significand : Nat) (exponent : Int) : String :=
  if significand = 0 then "0" ++ layout.wholeMark else
  let decimal := Shortest.ofFinite layout.tie significand exponent
  let digits := toString decimal.digits
  let point : Int := digits.length + decimal.exponent
  if layout.alwaysPositional || (decide (-5 < point) && decide (point ≤ 16)) then
    layout.positional digits point
  else layout.scientific digits point

/-- The text of a double: its shortest decimal, set down in the given `layout`. -/
def text (layout : Layout) (x : Float) : String :=
  match Binary.ofFloat x with
  | .undefined => layout.undefined
  | .infinite negative => if negative then layout.negativeInfinite else layout.infinite
  | .finite negative significand exponent =>
    (if negative then "-" else "") ++ layout.magnitude significand exponent

end Layout

/-- A double with `places` digits after the point, rounded from its exact value; a half goes to the
even neighbour. -/
def fixed (places : Nat) (x : Float) : String :=
  match Binary.ofFloat x with
  | .undefined => "NaN"
  | .infinite negative => if negative then "-inf" else "inf"
  | .finite negative significand exponent =>
    let scale := Nat.pow 10 places
    let units := roundDiv .even (Binary.numerator significand exponent * scale)
      (Binary.denominator exponent)
    let digits := toString (units % scale)
    (if negative then "-" else "") ++ toString (units / scale) ++
      (if places = 0 then "" else "." ++ Layout.zeros (places - digits.length) ++ digits)

end DurativePlanning
