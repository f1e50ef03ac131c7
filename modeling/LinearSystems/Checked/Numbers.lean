import LinearSystems.Number

/-!
# Checked steps, and numbers by checked steps

Computing goes through steps that have no result for some arguments: a place in a list, a cut, a
difference of counts, a quotient. A checked step gives a `Fault` then. The computations that are
written with checked steps alone show all the places where solving and writing could come to a
fault; that they never do is a theorem about them.

* `quotient`, `difference`, `cutAt`, `replaceAt`: checked steps, with `elementAt`.
* `number?`: the number that a text is, divided step by step.
* `decimalText`: a decimal, cut out of the field in which its digits are laid out.
-/

namespace LinearSystems.Checked

open Number

/-! ## Steps -/

def quotient (p q : Rat) : Except Fault Rat := (reciprocal q).map (p * ·)

def difference (m n : Nat) : Except Fault Nat :=
  if n ≤ m then .ok (m - n) else .error .outOfRange

/-- The part of a list before a place, and the part from there on. -/
def cutAt {α : Type} (l : List α) (i : Nat) : Except Fault (List α × List α) :=
  if i ≤ l.length then .ok (l.take i, l.drop i) else .error .outOfRange

/-- The list with another element in a place. -/
def replaceAt {α : Type} (l : List α) (i : Nat) (a : α) : Except Fault (List α) :=
  if i < l.length then .ok (l.set i a) else .error .outOfRange

/-! ## Reading -/

def decimalValue (whole fraction : List Char) : Except Fault Rat :=
  ratio (Nat.ofDigitChars 10 (whole ++ fraction) 0) (powerOfTen fraction.length)

/-- The value of a whole part and a fraction: digits only, and at least one of them. -/
def parts? (whole fraction : List Char) : Except Fault (Option Rat) :=
  if whole.isEmpty && fraction.isEmpty then .ok none
  else if (whole ++ fraction).all Char.isDigit then (decimalValue whole fraction).map some
  else .ok none

/-- The value of a decimal, if the text is one. -/
def decimal? (text : List Char) : Except Fault (Option Rat) :=
  match Text.pieces isSeparator text with
  | [whole] => parts? whole []
  | [whole, fraction] => parts? whole fraction
  | _ => .ok none

/-- The value divided by one decimal after the other, none of which may be zero. -/
def divide? (value : Rat) : List (List Char) → Except Fault (Option Rat)
  | [] => .ok (some value)
  | text :: rest => do
    match ← decimal? text with
    | none => return none
    | some divisor =>
      if divisor = 0 then return none
      else divide? (← quotient value divisor) rest

/-- The value of a number, if the text is one. -/
def number? (text : List Char) : Except Fault (Option Rat) :=
  match Text.pieces (· == '/') text with
  | [] => .ok none
  | first :: divisors => do
    match ← decimal? first with
    | none => return none
    | some value => divide? value divisors

/-! ## Writing -/

/-- The number rounded to the given count of decimal places. -/
def rounded (places : Nat) (q : Rat) : Except Fault Rat :=
  quotient (scaledToPlaces places q) (powerOfTen places)

/-- The text in a field of the given width, with zeros in front. -/
def inField (width : Nat) (text : List Char) : Except Fault (List Char) :=
  if width ≤ placesLimit + 1 then .ok (text.leftpad width '0') else .error .tooManyPlaces

/-- The number as a decimal. The field has one digit more than there are places, so that
something is left before the point. -/
def decimalText (places : Nat) (q : Rat) : Except Fault (List Char) :=
  let scaled := scaledToPlaces places q
  if places = 0 then .ok (sign (scaled < 0) ++ digits scaled.natAbs)
  else do
    let text ← inField (places + 1) (digits scaled.natAbs)
    let (whole, fraction) ← cutAt text (← difference text.length places)
    return sign (scaled < 0) ++ whole ++ pointed (trimZeros fraction)

def write : Style → Rat → Except Fault (List Char)
  | .fraction, q => .ok (fractionText q)
  | .decimal places, q => decimalText places q

end LinearSystems.Checked
