import LinearSystems.Error
import LinearSystems.Text.Basic

/-!
# Exact numbers

Numbers are rationals in lowest terms. Division is checked: a zero divisor is a
`Fault` and never a junk value. Rounding takes a half away from zero.

A decimal is a run of digits with at most one separator, a point or a comma. What is read as a
number is a decimal, or a chain of decimals with slashes between them, divided from left to
right. Nothing is rounded, and a zero divisor makes the text no number.

A number is written as a fraction, exactly, or as a decimal, rounded to a count of
places and without zeros at its end. Before the zeros are dropped, a decimal is laid out
in a field of at most 65535 digits, with at least one digit before the point; a count of
places that does not fit is a fault, whatever the number.

* `reciprocal_of_ne_zero`: a number other than zero has a reciprocal.
* `Number.ofText?`: the number that a text is.
* `Number.decimalText_of_le`: a count of places within the limit can be written.
-/

namespace LinearSystems

/-- The reciprocal, where there is one. -/
def reciprocal (q : Rat) : Except Fault Rat :=
  if q = 0 then .error .zeroDivisor else .ok q⁻¹

theorem reciprocal_of_ne_zero {q : Rat} (h : q ≠ 0) : reciprocal q = .ok q⁻¹ := if_neg h

def ratio (numerator denominator : Int) : Except Fault Rat :=
  (reciprocal denominator).map ((numerator : Rat) * ·)

/-- The nearest integer; a half goes away from zero. -/
def roundHalfAway (q : Rat) : Int :=
  let magnitude : Nat := (2 * q.num.natAbs + q.den) / (2 * q.den)
  if q.num < 0 then -(magnitude : Int) else magnitude

def powerOfTen (n : Nat) : Nat := Nat.pow 10 n

/-- The number in units of the given decimal place, rounded. -/
def scaledToPlaces (places : Nat) (q : Rat) : Int := roundHalfAway (q * (powerOfTen places : Rat))

/-- The number rounded to the given count of decimal places. -/
def roundTo (places : Nat) (q : Rat) : Rat :=
  (scaledToPlaces places q : Rat) / (powerOfTen places : Rat)

namespace Number

/-! ## Reading -/

/-- A point and a comma both separate the whole part from the fraction. -/
def isSeparator (c : Char) : Bool := c == '.' || c == ','

/-- The value of the digits of a whole part and of a fraction. -/
def decimalValue (whole fraction : List Char) : Rat :=
  (Nat.ofDigitChars 10 (whole ++ fraction) 0 : Rat) / (powerOfTen fraction.length : Rat)

/-- The value of a whole part and a fraction: digits only, and at least one of them. -/
def ofParts? (whole fraction : List Char) : Option Rat :=
  if whole.isEmpty && fraction.isEmpty then none
  else if (whole ++ fraction).all Char.isDigit then some (decimalValue whole fraction)
  else none

/-- The value of a decimal, if the text is one. -/
def ofDecimal? (text : List Char) : Option Rat :=
  match Text.pieces isSeparator text with
  | [whole] => ofParts? whole []
  | [whole, fraction] => ofParts? whole fraction
  | _ => none

/-- The quotient by a decimal that is not zero. -/
def divideBy? (value : Rat) (text : List Char) : Option Rat :=
  match ofDecimal? text with
  | some divisor => if divisor = 0 then none else some (value / divisor)
  | none => none

/-- The value of a number, if the text is one. -/
def ofText? (text : List Char) : Option Rat :=
  match Text.pieces (· == '/') text with
  | [] => none
  | first :: divisors => do
      let value ← ofDecimal? first
      divisors.foldlM divideBy? value

/-! ## Writing -/

def digits (n : Nat) : List Char := Nat.toDigits 10 n

/-- A minus sign, for what is below zero. -/
def sign (isNegative : Bool) : List Char := if isNegative then ['-'] else []

/-- The number as an integer or as a fraction in lowest terms, such as `-3/2`. -/
def fractionText (q : Rat) : List Char :=
  sign (q.num < 0) ++ digits q.num.natAbs ++ if q.den = 1 then [] else '/' :: digits q.den

def trimZeros (text : List Char) : List Char :=
  (text.reverse.dropWhile (· == '0')).reverse

/-- A point and the digits after it, if there are any. -/
def pointed (fraction : List Char) : List Char :=
  if fraction.isEmpty then [] else '.' :: fraction

/-- The number rounded to the given count of places, such as `1.45`, without zeros at
the end of its fraction. -/
def roundedText (places : Nat) (q : Rat) : List Char :=
  let scaled := scaledToPlaces places q
  let whole := digits (scaled.natAbs / powerOfTen places)
  let fraction := (digits (scaled.natAbs % powerOfTen places)).leftpad places '0'
  sign (scaled < 0) ++ whole ++ pointed (trimZeros fraction)

/-- The greatest count of places that can be written. -/
def placesLimit : Nat := 0xFFFE

/-- The number as a decimal, if there is room for the places. -/
def decimalText (places : Nat) (q : Rat) : Except Fault (List Char) :=
  if places ≤ placesLimit then .ok (roundedText places q) else .error .tooManyPlaces

theorem decimalText_of_le {places : Nat} (h : places ≤ placesLimit) (q : Rat) :
    decimalText places q = .ok (roundedText places q) := if_pos h

/-- How numbers are written. -/
inductive Style where
  | fraction
  /-- As decimals with at most this many places. -/
  | decimal (places : Nat)
deriving DecidableEq

namespace Style

/-- The count of decimal places where none is asked for. -/
def defaultPlaces : Nat := 2

def write : Style → Rat → Except Fault (List Char)
  | fraction, q => .ok (fractionText q)
  | decimal places, q => decimalText places q

end Style

end Number

end LinearSystems
