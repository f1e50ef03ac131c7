import LinearSystems.Proofs.WrittenValues
import Mathlib.Algebra.Order.Field.Basic
import Mathlib.Algebra.Order.Ring.Cast

/-!
# Decimals as text

A number of units of a decimal place is written as a decimal: the digits of the whole part,
and after a point those of the fraction, filled up with zeros in front and without zeros at
its end. Neither the zeros that are filled in nor those that are dropped change what is read,
so that reading gives the number back.

A rounded number is such a number of units, and rounding it again does not change it. So
decimals, like fractions, are written as a sign and a literal.

* `exists_trimZeros`: what is dropped are zeros.
* `unitsText`, `isDecimal_unitsText`: a number of units is a decimal.
* `roundTo_div`: a number of units is not rounded.
* `decimalText_of_roundTo`: what is written for a number, by the rounded number.
* `Style.decimal_writes`: the numbers that a count of places shows.
-/

namespace LinearSystems.Number

/-! ## Zeros -/

theorem exists_trimZeros (l : List Char) :
    ∃ count, l = trimZeros l ++ List.replicate count '0' := by
  have hzeros : l.reverse.takeWhile (· == '0') =
      List.replicate (l.reverse.takeWhile (· == '0')).length '0' := by
    apply List.eq_replicate_of_mem
    intro c hc
    exact beq_iff_eq.mp (List.mem_takeWhile_imp (p := (· == '0')) hc)
  have hsplit := congrArg List.reverse (List.takeWhile_append_dropWhile (p := (· == '0'))
    (l := l.reverse))
  rw [List.reverse_append, List.reverse_reverse, hzeros, List.reverse_replicate] at hsplit
  exact ⟨_, hsplit.symm⟩

theorem mem_of_mem_trimZeros {l : List Char} {c : Char} (h : c ∈ trimZeros l) : c ∈ l := by
  obtain ⟨count, hsplit⟩ := exists_trimZeros l
  have hmem := List.mem_append_left (List.replicate count '0') h
  rwa [← hsplit] at hmem

theorem powerOfTen_pos (n : Nat) : (0 : Rat) < powerOfTen n :=
  Nat.cast_pos.mpr (Nat.pow_pos (by decide))

theorem powerOfTen_ne_zero (n : Nat) : (powerOfTen n : Rat) ≠ 0 := ne_of_gt (powerOfTen_pos n)

theorem powerOfTen_add (m n : Nat) : powerOfTen (m + n) = powerOfTen m * powerOfTen n :=
  Nat.pow_add 10 m n

/-- Zeros at the end of a fraction do not count. -/
theorem decimalValue_trimZeros (whole fraction : List Char) :
    decimalValue whole (trimZeros fraction) = decimalValue whole fraction := by
  obtain ⟨count, hsplit⟩ := exists_trimZeros fraction
  generalize trimZeros fraction = trimmed at hsplit
  subst hsplit
  have hdigits : Nat.ofDigitChars 10 (whole ++ (trimmed ++ List.replicate count '0')) 0 =
      powerOfTen count * Nat.ofDigitChars 10 (whole ++ trimmed) 0 := by
    rw [← List.append_assoc, Nat.ofDigitChars_append, Nat.ofDigitChars_replicate_zero]
    rfl
  rw [decimalValue, decimalValue, hdigits, List.length_append, List.length_replicate,
    powerOfTen_add, mul_comm (powerOfTen trimmed.length), Nat.cast_mul, Nat.cast_mul,
    mul_div_mul_left _ _ (powerOfTen_ne_zero count)]

/-! ## Units of a decimal place -/

/-- The digits after the point, with all zeros. -/
def fractionDigits (places n : Nat) : List Char :=
  (digits (n % powerOfTen places)).leftpad places '0'

/-- That many units of the given decimal place, as a decimal. -/
def unitsText (places n : Nat) : List Char :=
  digits (n / powerOfTen places) ++ pointed (trimZeros (fractionDigits places n))

theorem ofDigitChars_fractionDigits (places n : Nat) :
    Nat.ofDigitChars 10 (fractionDigits places n) 0 = n % powerOfTen places := by
  rw [fractionDigits, List.leftpad, Nat.ofDigitChars_append, Nat.ofDigitChars_replicate_zero,
    mul_zero]
  exact Nat.ofDigitChars_ten_toDigits

theorem length_fractionDigits {places : Nat} (h : 0 < places) (n : Nat) :
    (fractionDigits places n).length = places := by
  have hlength : (digits (n % powerOfTen places)).length ≤ places :=
    (Nat.length_toDigits_le_iff (by decide) h).mpr (Nat.mod_lt n (Nat.pow_pos (by decide)))
  rw [fractionDigits, List.length_leftpad, max_eq_left hlength]

theorem decimalValue_fractionDigits (places n : Nat) :
    decimalValue (digits (n / powerOfTen places)) (fractionDigits places n) =
      n / powerOfTen places := by
  have hwhole : Nat.ofDigitChars 10 (digits (n / powerOfTen places)) 0 = n / powerOfTen places :=
    Nat.ofDigitChars_ten_toDigits
  have hdigits : Nat.ofDigitChars 10
      (digits (n / powerOfTen places) ++ fractionDigits places n) 0 =
        powerOfTen (fractionDigits places n).length * (n / powerOfTen places) +
          n % powerOfTen places := by
    rw [Nat.ofDigitChars_append, Nat.ofDigitChars_eq_ofDigitChars_zero, hwhole,
      ofDigitChars_fractionDigits]
    rfl
  rw [decimalValue, hdigits]
  rcases Nat.eq_zero_or_pos places with rfl | hplaces
  · -- There is no fraction, but the zero that stands for it is a digit.
    have hone : powerOfTen 0 = 1 := rfl
    rw [hone, Nat.mod_one, Nat.div_one, add_zero, Nat.cast_mul,
      mul_div_cancel_left₀ _ (powerOfTen_ne_zero _), Nat.cast_one, div_one]
  · rw [length_fractionDigits hplaces, Nat.div_add_mod]

theorem isDigit_of_mem_fractionDigits {places n : Nat} {c : Char}
    (h : c ∈ fractionDigits places n) : c.isDigit = true := by
  rw [fractionDigits, List.leftpad, List.mem_append] at h
  rcases h with h | h
  · rw [List.eq_of_mem_replicate h]
    rfl
  · exact isDigit_of_mem_digits h

theorem mem_unitsText {places n : Nat} {c : Char} (h : c ∈ unitsText places n) :
    c.isDigit = true ∨ c = '.' := by
  rw [unitsText, List.mem_append, pointed] at h
  rcases h with h | h
  · exact Or.inl (isDigit_of_mem_digits h)
  · split at h
    · cases h
    · rcases List.mem_cons.mp h with rfl | h
      · exact Or.inr rfl
      · exact Or.inl (isDigit_of_mem_fractionDigits (mem_of_mem_trimZeros h))

theorem exists_unitsText_eq_cons (places n : Nat) :
    ∃ c rest, unitsText places n = c :: rest ∧ c.isDigit = true := by
  obtain ⟨c, rest, hdigits, hdigit⟩ := exists_digits_eq_cons (n / powerOfTen places)
  refine ⟨c, _, by rw [unitsText, hdigits, List.cons_append], ?_⟩
  exact hdigit c List.mem_cons_self

/-! ## Units as decimals -/

theorem isDecimal_pointed {whole fraction : List Char} (hne : whole ≠ [])
    (hwhole : ∀ c ∈ whole, c.isDigit = true) (hfraction : ∀ c ∈ fraction, c.isDigit = true) :
    IsDecimal (whole ++ pointed fraction) (decimalValue whole fraction) := by
  rw [decimalValue_eq]
  cases fraction with
  | nil =>
      have hinteger := IsDecimal.integer hne hwhole
      rwa [pointed, List.isEmpty_nil, if_pos rfl, List.append_nil, List.length_nil, pow_zero,
        div_one]
  | cons d fraction =>
      exact .separated hne (Or.inl rfl) (List.forall_mem_append.mpr ⟨hwhole, hfraction⟩)

theorem isDecimal_unitsText (places n : Nat) :
    IsDecimal (unitsText places n) (n / powerOfTen places) := by
  rw [← decimalValue_fractionDigits, ← decimalValue_trimZeros]
  exact isDecimal_pointed (digits_ne_nil _) (fun c hc => isDigit_of_mem_digits hc)
    (fun c hc => isDigit_of_mem_fractionDigits (mem_of_mem_trimZeros hc))

/-! ## Rounded numbers -/

theorem roundHalfAway_intCast (k : Int) : roundHalfAway (k : Rat) = k := by
  have hhalf : (2 * k.natAbs + 1) / (2 * 1) = k.natAbs := by omega
  rw [roundHalfAway, Rat.num_intCast, Rat.den_intCast, hhalf]
  split <;> omega

/-- A number of units is not changed by rounding. -/
theorem scaledToPlaces_div (places : Nat) (k : Int) :
    scaledToPlaces places (k / powerOfTen places) = k := by
  rw [scaledToPlaces, div_mul_cancel₀ _ (powerOfTen_ne_zero places), roundHalfAway_intCast]

theorem roundTo_div (places : Nat) (k : Int) :
    roundTo places (k / powerOfTen places) = k / powerOfTen places := by
  rw [roundTo, scaledToPlaces_div]

theorem roundTo_neg_iff {places : Nat} {q : Rat} :
    roundTo places q < 0 ↔ scaledToPlaces places q < 0 := by
  rw [roundTo, div_lt_iff₀ (powerOfTen_pos places), zero_mul, Int.cast_lt_zero]

/-- How decimals write a number without its sign. -/
def decimalLiteral (places : Nat) (q : Rat) : List Char :=
  unitsText places (scaledToPlaces places q).natAbs

theorem decimalText_of_roundTo {places : Nat} (h : places ≤ placesLimit) (q : Rat) :
    decimalText places q = .ok (sign (roundTo places q < 0) ++ decimalLiteral places q) := by
  rw [decimalText_of_le h, roundedText, decimalLiteral, unitsText, fractionDigits,
    List.append_assoc]
  simp only [roundTo_neg_iff]

/-- A literal is the magnitude of the rounded number. -/
theorem isDecimal_decimalLiteral (places : Nat) (q : Rat) :
    IsDecimal (decimalLiteral places q) |roundTo places q| := by
  have hunits := isDecimal_unitsText places (scaledToPlaces places q).natAbs
  rwa [Nat.cast_natAbs, Int.cast_abs, ← abs_of_pos (powerOfTen_pos places), ← abs_div] at hunits

/-- Decimals write the numbers that they show as a sign and a literal. -/
theorem Style.decimal_writes {places : Nat} (h : places ≤ placesLimit) (k : Int) :
    (decimal places).Writes (k / powerOfTen places)
      (decimalLiteral places (k / powerOfTen places)) where
  write_eq := by
    have htext := decimalText_of_roundTo h (k / powerOfTen places)
    rwa [roundTo_div] at htext
  isRun := by
    obtain ⟨c, rest, htext, hc⟩ := exists_unitsText_eq_cons places
      (scaledToPlaces places (k / powerOfTen places)).natAbs
    refine ⟨c, rest, htext, ?_, fun d hd => ?_⟩
    · rw [Text.Lexeme.startsNumber, hc]
      rfl
    · rcases mem_unitsText (htext ▸ List.mem_cons_of_mem c hd) with hdigit | rfl
      · rw [Text.Lexeme.continuesNumber, Text.Lexeme.startsNumber, hdigit]
        rfl
      · rfl
  value_eq := by
    have hdecimal := isDecimal_decimalLiteral places (k / powerOfTen places)
    rw [roundTo_div] at hdecimal
    exact (IsNumber.decimal hdecimal).ofText?_eq

end LinearSystems.Number
