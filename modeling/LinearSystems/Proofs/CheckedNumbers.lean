import LinearSystems.Checked.Numbers
import LinearSystems.Proofs.DecimalTexts

/-!
# Numbers never come to a fault

Reading and writing numbers by checked steps gives what reading and writing give. The powers of
ten are not zero, a divisor is looked at before it is divided by, and the field of a decimal has
more digits than there are places, so that it can be cut.

* `number?_eq`, `rounded_eq`: reading and rounding have no fault.
* `leftpad_digits`: the field of a decimal is its whole part and its fraction.
* `decimalText_eq`, `write_eq`: writing has no other fault than a lack of room.
-/

namespace LinearSystems.Checked

open Number

/-! ## Steps -/

theorem quotient_of_ne_zero {q : Rat} (h : q ≠ 0) (p : Rat) : quotient p q = .ok (p / q) := by
  rw [quotient, reciprocal_of_ne_zero h, div_eq_mul_inv]
  rfl

theorem difference_of_le {m n : Nat} (h : n ≤ m) : difference m n = .ok (m - n) := if_pos h

section Lists

variable {α : Type}

theorem elementAt_append_cons (front : List α) (a : α) (back : List α) :
    elementAt (front ++ a :: back) front.length = .ok a := by
  rw [elementAt_eq_ok_iff, List.getElem?_append_right (le_refl _), Nat.sub_self]
  rfl

theorem cutAt_append (front back : List α) :
    cutAt (front ++ back) front.length = .ok (front, back) := by
  rw [cutAt, if_pos (by simp), List.take_left, List.drop_left]

theorem replaceAt_append_cons (front : List α) (a b : α) (back : List α) :
    replaceAt (front ++ a :: back) front.length b = .ok (front ++ b :: back) := by
  rw [replaceAt, if_pos (by simp), List.set_append_right _ _ (le_refl _), Nat.sub_self]
  rfl

end Lists

/-! ## Reading -/

theorem decimalValue_eq (whole fraction : List Char) :
    decimalValue whole fraction = .ok (Number.decimalValue whole fraction) := by
  have hdivisor : ((powerOfTen fraction.length : Int) : Rat) ≠ 0 := by
    rw [Int.cast_natCast]
    exact powerOfTen_ne_zero fraction.length
  rw [decimalValue, ratio, reciprocal_of_ne_zero hdivisor, Number.decimalValue, div_eq_mul_inv,
    Int.cast_natCast, Int.cast_natCast]
  rfl

theorem parts?_eq (whole fraction : List Char) :
    parts? whole fraction = .ok (ofParts? whole fraction) := by
  rw [parts?, ofParts?, decimalValue_eq]
  split
  · rfl
  · split <;> rfl

theorem decimal?_eq (text : List Char) : decimal? text = .ok (ofDecimal? text) := by
  rw [decimal?, ofDecimal?]
  rcases Text.pieces isSeparator text with _ | ⟨whole, _ | ⟨fraction, _ | ⟨piece, more⟩⟩⟩
  · rfl
  · exact parts?_eq whole []
  · exact parts?_eq whole fraction
  · rfl

theorem divide?_eq (value : Rat) (texts : List (List Char)) :
    divide? value texts = .ok (texts.foldlM divideBy? value) := by
  induction texts generalizing value with
  | nil => rfl
  | cons text rest ih =>
      rw [divide?, decimal?_eq, List.foldlM_cons, divideBy?]
      cases ofDecimal? text with
      | none => rfl
      | some divisor =>
          by_cases hzero : divisor = 0
          · subst hzero
            rfl
          · simp only [bind, Except.bind, if_neg hzero, quotient_of_ne_zero hzero, ih]
            rfl

/-- No text makes reading a number divide by zero. -/
theorem number?_eq (text : List Char) : number? text = .ok (ofText? text) := by
  rw [number?, ofText?]
  cases Text.pieces (· == '/') text with
  | nil => rfl
  | cons first divisors =>
      simp only [decimal?_eq, bind, Except.bind]
      cases ofDecimal? first with
      | none => rfl
      | some value => exact divide?_eq value divisors

/-! ## Writing -/

theorem rounded_eq (places : Nat) (q : Rat) : rounded places q = .ok (roundTo places q) :=
  quotient_of_ne_zero (powerOfTen_ne_zero places) _

/-- The last digit of a number in a field, and the field of the others. -/
theorem leftpad_digits_succ {width : Nat} (h : 0 < width) (n : Nat) :
    (digits n).leftpad (width + 1) '0' =
      (digits (n / 10)).leftpad width '0' ++ digits (n % 10) := by
  rcases Nat.lt_or_ge n 10 with hn | hn
  · have hone : digits n = [n.digitChar] := Nat.toDigits_of_lt_base hn
    obtain ⟨others, rfl⟩ : ∃ others, width = others + 1 := ⟨width - 1, by omega⟩
    rw [Nat.div_eq_of_lt hn, Nat.mod_eq_of_lt hn, hone, List.leftpad, List.leftpad]
    simp [digits, List.replicate_succ']
  · have hlength : (digits (n % 10)).length = 1 := by
      rw [digits, Nat.toDigits_of_lt_base (Nat.mod_lt n (by decide)), List.length_singleton]
    rw [digits_eq_append hn, List.leftpad, List.leftpad, List.length_append, hlength,
      Nat.add_sub_add_right, List.append_assoc]

/-- The field of a decimal has its whole part in front, and its fraction in the last places. -/
theorem leftpad_digits {places : Nat} (h : 0 < places) (n : Nat) :
    (digits n).leftpad (places + 1) '0' =
      digits (n / powerOfTen places) ++ fractionDigits places n := by
  have hone : ∀ m, (digits m).leftpad 1 '0' = digits m := by
    intro m
    have hpos : 0 < (digits m).length := List.length_pos_of_ne_nil (digits_ne_nil m)
    rw [List.leftpad, Nat.sub_eq_zero_of_le hpos]
    rfl
  induction places, h using Nat.le_induction generalizing n with
  | base =>
      rw [leftpad_digits_succ (by decide), hone, fractionDigits, hone]
      rfl
  | succ places hplaces ih =>
      have hten : powerOfTen (places + 1) = 10 * powerOfTen places := Nat.pow_succ'
      rw [leftpad_digits_succ (Nat.succ_pos places), ih, fractionDigits, fractionDigits,
        leftpad_digits_succ hplaces, hten, Nat.div_div_eq_div_mul, Nat.mod_mul_right_div_self,
        Nat.mod_mul_right_mod, List.append_assoc]

/-- Writing a decimal has no other fault than a lack of room for the places. -/
theorem decimalText_eq (places : Nat) (q : Rat) :
    decimalText places q = Number.decimalText places q := by
  rw [decimalText]
  by_cases hzero : places = 0
  · subst hzero
    have hnone : pointed (trimZeros ((digits 0).leftpad 0 '0')) = [] := rfl
    rw [if_pos rfl, decimalText_of_le (Nat.zero_le _), roundedText, show powerOfTen 0 = 1 from rfl,
      Nat.div_one, Nat.mod_one, hnone, List.append_nil]
  · rw [if_neg hzero, inField]
    by_cases hroom : places ≤ placesLimit
    · have hplaces : 0 < places := Nat.pos_of_ne_zero hzero
      generalize hscaled : scaledToPlaces places q = scaled
      have hlength := length_fractionDigits hplaces scaled.natAbs
      have hcut : (digits (scaled.natAbs / powerOfTen places) ++
          fractionDigits places scaled.natAbs).length - places =
            (digits (scaled.natAbs / powerOfTen places)).length := by
        rw [List.length_append, hlength, Nat.add_sub_cancel]
      rw [if_pos (Nat.succ_le_succ hroom), leftpad_digits hplaces, decimalText_of_le hroom,
        roundedText, hscaled]
      simp only [bind, Except.bind]
      rw [difference_of_le (by rw [List.length_append, hlength]; exact Nat.le_add_left _ _), hcut]
      simp only [cutAt_append]
      rfl
    · rw [if_neg (fun h => hroom (Nat.le_of_succ_le_succ h)), Number.decimalText, if_neg hroom]
      rfl

theorem write_eq (style : Style) (q : Rat) : write style q = style.write q := by
  cases style with
  | fraction => rfl
  | decimal places => exact decimalText_eq places q

end LinearSystems.Checked
