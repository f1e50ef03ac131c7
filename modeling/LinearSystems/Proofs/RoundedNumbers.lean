import LinearSystems.Proofs.DecimalTexts
import Mathlib.Algebra.Order.Floor.Ring
import Mathlib.Data.Rat.Floor

/-!
# Rounded numbers

A number is rounded to the nearest multiple of a unit, and of two that are equally near to the
one farther from zero. There is just one such multiple. Numbers that are multiples of a decimal
place are written with a whole part without needless zeros in front, and with a fraction only if
one is needed, as short as it can be.

* `IsRounded`: the multiple of a unit that a number is rounded to.
* `isRounded_roundTo_iff`: rounding to a count of places gives it.
* `IsShort`, `isShort_unitsText`: decimals without needless digits.
* `decimalText_inj`: a rounded number is told by what is written for it.
* `decimalText_follows_rounding`: what is written for a number, by the rounded number.
-/

namespace LinearSystems.Number

/-! ## The nearest multiple -/

/-- The multiple of the unit that is nearest to `q`, and the farther one from zero if two of them
are. -/
structure IsRounded (unit q r : Rat) : Prop where
  exists_eq : ∃ k : Int, r = k * unit
  nearest : ∀ k : Int, |q - r| ≤ |q - k * unit|
  away : ∀ k : Int, |q - k * unit| = |q - r| → |k * unit| ≤ |r|

namespace IsRounded

variable {unit q r s : Rat}

theorem neg (h : IsRounded unit q r) : IsRounded unit (-q) (-r) := by
  have hdistance : ∀ x y : Rat, |-x - y| = |x - -y| := by
    intro x y
    rw [← abs_neg, neg_sub, sub_neg_eq_add, sub_neg_eq_add, add_comm]
  have hopposite : ∀ k : Int, -(k * unit) = ((-k : Int) : Rat) * unit := by
    intro k
    rw [Int.cast_neg, neg_mul]
  refine ⟨?_, fun k => ?_, fun k hk => ?_⟩
  · obtain ⟨k, rfl⟩ := h.exists_eq
    exact ⟨-k, hopposite k⟩
  · rw [hdistance, hdistance, neg_neg, hopposite]
    exact h.nearest (-k)
  · rw [hdistance, hdistance, neg_neg, hopposite] at hk
    rw [← abs_neg, hopposite, abs_neg r]
    exact h.away (-k) hk

/-- A number in another unit. -/
theorem mul {c : Rat} (hc : 0 < c) (h : IsRounded unit q r) :
    IsRounded (unit * c) (q * c) (r * c) := by
  have hdistance : ∀ x y : Rat, |x * c - y * c| = |x - y| * c := by
    intro x y
    rw [← sub_mul, abs_mul, abs_of_pos hc]
  refine ⟨?_, fun k => ?_, fun k hk => ?_⟩
  · obtain ⟨k, rfl⟩ := h.exists_eq
    exact ⟨k, mul_assoc _ _ _⟩
  · rw [← mul_assoc, hdistance, hdistance]
    exact mul_le_mul_of_nonneg_right (h.nearest k) hc.le
  · rw [← mul_assoc, hdistance, hdistance] at hk
    rw [← mul_assoc, abs_mul, abs_mul r]
    exact mul_le_mul_of_nonneg_right (h.away k (mul_right_cancel₀ hc.ne' hk)) (abs_nonneg c)

/-- No two multiples are rounded to. -/
theorem unique (hr : IsRounded unit q r) (hs : IsRounded unit q s) : r = s := by
  obtain ⟨j, rfl⟩ := hr.exists_eq
  obtain ⟨k, rfl⟩ := hs.exists_eq
  have hdistance : |q - j * unit| = |q - k * unit| := le_antisymm (hr.nearest k) (hs.nearest j)
  have hsize : |j * unit| = |k * unit| :=
    le_antisymm (hs.away j hdistance) (hr.away k hdistance.symm)
  rcases abs_eq_abs.mp hsize with hsame | hopposite
  · exact hsame
  rcases abs_eq_abs.mp hdistance with hsame | hmiddle
  · linarith
  -- Zero is in the middle of a multiple and its opposite, and is one itself.
  have hzero : q = 0 := by linarith
  have hnearest := hr.nearest 0
  rw [hzero, Int.cast_zero, zero_mul, sub_zero, abs_zero, abs_nonpos_iff, zero_sub,
    neg_eq_zero] at hnearest
  rw [hnearest] at hopposite ⊢
  linarith

end IsRounded

/-! ## Rounding to an integer -/

theorem roundHalfAway_of_nonneg {q : Rat} (h : 0 ≤ q) : roundHalfAway q = ⌊q + 1 / 2⌋ := by
  have hnum : ¬ q.num < 0 := not_lt.mpr (Rat.num_nonneg.mpr h)
  have hden : (q.den : Rat) ≠ 0 := Nat.cast_ne_zero.mpr q.den_nz
  have hhalf : q + 1 / 2 =
      ((2 * q.num.natAbs + q.den : Nat) : Rat) / ((2 * q.den : Nat) : Rat) := by
    have hvalue := natAbs_num_div_den h
    push_cast
    field_simp at hvalue ⊢
    linarith
  rw [roundHalfAway, if_neg hnum, hhalf]
  exact (Rat.floor_natCast_div_natCast _ _).symm

theorem roundHalfAway_neg (q : Rat) : roundHalfAway (-q) = -roundHalfAway q := by
  simp only [roundHalfAway, Rat.neg_num, Rat.neg_den, Int.natAbs_neg]
  rcases lt_trichotomy q.num 0 with hneg | hzero | hpos
  · rw [if_neg (by omega), if_pos hneg, neg_neg]
  · have hnone : (2 * q.num.natAbs + q.den) / (2 * q.den) = 0 := by
      have := q.den_pos
      exact Nat.div_eq_of_lt (by omega)
    rw [hnone, if_neg (by omega), if_neg (by omega)]
    rfl
  · rw [if_pos (by omega), if_neg (by omega)]

/-- Different integers are at least one apart. -/
theorem one_le_abs_sub {j k : Int} (h : j ≠ k) : (1 : Rat) ≤ |(j : Rat) - k| := by
  have hone : 1 ≤ |j - k| := Int.one_le_abs (sub_ne_zero.mpr h)
  exact_mod_cast hone

theorem isRounded_roundHalfAway (q : Rat) : IsRounded 1 q (roundHalfAway q) := by
  -- Numbers below zero are rounded as their opposites are.
  wlog h : 0 ≤ q generalizing q
  · have hopposite := (this (-q) (by linarith)).neg
    rwa [roundHalfAway_neg, Int.cast_neg, neg_neg, neg_neg] at hopposite
  rw [roundHalfAway_of_nonneg h]
  have hlower := Int.lt_floor_add_one (q + 1 / 2)
  have hupper := Int.floor_le (q + 1 / 2)
  have hnonneg : (0 : Rat) ≤ ⌊q + 1 / 2⌋ := by
    exact_mod_cast Int.floor_nonneg.mpr (by linarith : (0 : Rat) ≤ q + 1 / 2)
  generalize ⌊q + 1 / 2⌋ = n at hlower hupper hnonneg
  have hnear : |q - n| ≤ 1 / 2 := abs_le.mpr ⟨by linarith, by linarith⟩
  refine ⟨⟨n, (mul_one _).symm⟩, fun k => ?_, fun k hk => ?_⟩
  · rw [mul_one]
    rcases eq_or_ne n k with rfl | hne
    · exact le_refl _
    · have htriangle := abs_sub_le (n : Rat) q k
      rw [abs_sub_comm (n : Rat) q] at htriangle
      linarith [one_le_abs_sub hne]
  · rw [mul_one] at hk ⊢
    rcases eq_or_ne n k with rfl | hne
    · exact le_refl _
    · -- `q` lies between the two, and `n` is not the lower one.
      have hmiddle : q - k = -(q - n) :=
        (abs_eq_abs.mp hk).resolve_left fun hsame =>
          hne (Int.cast_injective (sub_right_inj.mp hsame).symm)
      have habove : (n : Rat) - k ≥ 1 := by
        rcases le_abs.mp (one_le_abs_sub hne) with habove | hbelow
        · exact habove
        · linarith
      rw [abs_of_nonneg hnonneg, abs_le]
      exact ⟨by linarith, by linarith⟩

/-- Rounding to a count of decimal places gives the nearest multiple of the last of them. -/
theorem isRounded_roundTo_iff {places : Nat} {q r : Rat} :
    IsRounded (1 / 10 ^ places) q r ↔ r = roundTo places q := by
  have hunit : (1 : Rat) / 10 ^ places = 1 / powerOfTen places := by
    rw [powerOfTen, Nat.pow_eq, Nat.cast_pow, Nat.cast_ofNat]
  have hrounded : IsRounded (1 / 10 ^ places) q (roundTo places q) := by
    have hscaled := (isRounded_roundHalfAway (q * powerOfTen places)).mul
      (inv_pos.mpr (powerOfTen_pos places))
    rwa [mul_inv_cancel_right₀ (powerOfTen_ne_zero places), ← div_eq_mul_inv, ← div_eq_mul_inv,
      ← hunit] at hscaled
  constructor
  · exact fun h => h.unique hrounded
  · rintro rfl
    exact hrounded

/-! ## Decimals without needless digits -/

/-- A whole part: digits without needless zeros in front. -/
structure IsWhole (text : List Char) : Prop where
  ne_nil : text ≠ []
  isDigit : ∀ c ∈ text, c.isDigit = true
  head_ne : text = ['0'] ∨ text.head? ≠ some '0'

/-- A whole part, alone or with a point and at most `places` digits after it, of which the last is
not zero. -/
inductive IsShort (places : Nat) : List Char → Prop where
  | whole {whole : List Char} (h : IsWhole whole) : IsShort places whole
  | pointed {whole fraction : List Char} (h : IsWhole whole) (pos : 0 < fraction.length)
      (le_places : fraction.length ≤ places) (isDigit : ∀ c ∈ fraction, c.isDigit = true)
      (last_ne : fraction.getLast? ≠ some '0') : IsShort places (whole ++ '.' :: fraction)

theorem head?_digits_ne_zero {n : Nat} (h : 0 < n) : (digits n).head? ≠ some '0' := by
  induction n using Nat.strong_induction_on with
  | _ n ih =>
    rcases Nat.lt_or_ge n 10 with hlt | hge
    · have hdigit : ∀ d < 10, 0 < d → some d.digitChar ≠ some '0' := by decide
      rw [digits, Nat.toDigits_of_lt_base hlt]
      exact hdigit n hlt h
    · rw [digits_eq_append hge, List.head?_append_of_ne_nil _ (digits_ne_nil _)]
      exact ih (n / 10) (by omega) (by omega)

theorem isWhole_digits (n : Nat) : IsWhole (digits n) where
  ne_nil := digits_ne_nil n
  isDigit _ := isDigit_of_mem_digits
  head_ne := by
    rcases Nat.eq_zero_or_pos n with rfl | hpos
    · exact Or.inl rfl
    · exact Or.inr (head?_digits_ne_zero hpos)

theorem getLast?_trimZeros_ne (text : List Char) : (trimZeros text).getLast? ≠ some '0' := by
  rw [trimZeros, List.getLast?_reverse]
  intro hzero
  have hhead := Text.eq_false_of_mem_head?_dropWhile hzero
  cases hhead

theorem length_trimZeros_le (text : List Char) : (trimZeros text).length ≤ text.length := by
  have hle := (List.dropWhile_suffix (· == '0') (l := text.reverse)).length_le
  rwa [List.length_reverse, ← List.length_reverse, ← trimZeros] at hle

theorem length_trimZeros_fractionDigits_le (places n : Nat) :
    (trimZeros (fractionDigits places n)).length ≤ places := by
  rcases Nat.eq_zero_or_pos places with rfl | hplaces
  · have hzero : n % powerOfTen 0 = 0 := Nat.mod_one n
    rw [fractionDigits, hzero]
    exact le_refl 0
  · exact (length_trimZeros_le _).trans_eq (length_fractionDigits hplaces n)

theorem isShort_unitsText (places n : Nat) : IsShort places (unitsText places n) := by
  rw [unitsText, pointed]
  split
  · rw [List.append_nil]
    exact .whole (isWhole_digits _)
  · next hne =>
    rw [List.isEmpty_iff] at hne
    exact .pointed (isWhole_digits _) (List.length_pos_of_ne_nil hne)
      (length_trimZeros_fractionDigits_le places n)
      (fun c hc => isDigit_of_mem_fractionDigits (mem_of_mem_trimZeros hc))
      (getLast?_trimZeros_ne _)

/-! ## What is written for a rounded number -/

section Written

variable {places : Nat} {q r : Rat}

theorem roundTo_inj :
    roundTo places q = roundTo places r ↔ scaledToPlaces places q = scaledToPlaces places r := by
  rw [roundTo, roundTo, div_left_inj' (powerOfTen_ne_zero places), Int.cast_inj]

/-- No literal starts with a minus sign, so that a text shows whether there is one in front. -/
theorem sign_append_inj {isNegative isNegative' : Bool}
    (h : sign isNegative ++ decimalLiteral places q = sign isNegative' ++ decimalLiteral places r) :
    isNegative = isNegative' ∧ decimalLiteral places q = decimalLiteral places r := by
  have hdigit : ∀ q, (decimalLiteral places q).head? ≠ some '-' := by
    intro q hminus
    obtain ⟨c, rest, htext, hc⟩ := exists_unitsText_eq_cons places (scaledToPlaces places q).natAbs
    rw [decimalLiteral, htext, List.head?_cons] at hminus
    rw [Option.some.inj hminus] at hc
    cases hc
  cases isNegative <;> cases isNegative'
  · exact ⟨rfl, h⟩
  · exact absurd (congrArg List.head? h) (hdigit q)
  · exact absurd (congrArg List.head? h).symm (hdigit r)
  · exact ⟨rfl, (List.cons.inj h).2⟩

/-- A rounded number is told by what is written for it. -/
theorem decimalText_inj (h : places ≤ placesLimit) :
    decimalText places q = decimalText places r ↔ roundTo places q = roundTo places r := by
  constructor
  · intro htext
    rw [decimalText_of_roundTo h, decimalText_of_roundTo h] at htext
    obtain ⟨hsign, hliteral⟩ := sign_append_inj (Except.ok.inj htext)
    have hsize := congrArg ofDecimal? hliteral
    rw [ofDecimal?_eq_some_iff.mpr (isDecimal_decimalLiteral places q),
      ofDecimal?_eq_some_iff.mpr (isDecimal_decimalLiteral places r)] at hsize
    rw [decide_eq_decide] at hsign
    rcases abs_eq_abs.mp (Option.some.inj hsize) with hsame | hopposite
    · exact hsame
    · -- Opposite numbers on the same side of zero are zero.
      rcases lt_or_ge (roundTo places r) 0 with hneg | hnonneg
      · linarith [hsign.mpr hneg]
      · linarith [not_lt.mp (mt hsign.mp (not_lt.mpr hnonneg))]
  · intro hrounded
    rw [decimalText_of_le h, decimalText_of_le h, roundedText, roundedText, roundTo_inj.mp hrounded]

/-- **Decimals are rounded numbers without needless digits.** A number is rounded to the one
multiple of the last place that is nearest, and of two to the one farther from zero. Where there
is room for the places, its decimal is a minus sign, just if the rounded number is below zero,
and a decimal without needless digits that is read as the magnitude of the rounded number; so two
decimals are equal just if the rounded numbers are. Where there is no room, there is no
decimal. -/
theorem decimalText_follows_rounding (places : Nat) (q : Rat) :
    (∀ r, IsRounded (1 / 10 ^ places) q r ↔ r = roundTo places q) ∧
      (places ≤ placesLimit →
        (∃ text, decimalText places q = .ok (sign (roundTo places q < 0) ++ text) ∧
          ofDecimal? text = some |roundTo places q| ∧ IsShort places text) ∧
        ∀ r, decimalText places q = decimalText places r ↔
          roundTo places q = roundTo places r) ∧
      (placesLimit < places → decimalText places q = .error .tooManyPlaces) := by
  refine ⟨fun r => isRounded_roundTo_iff, fun h => ⟨⟨decimalLiteral places q, ?_, ?_, ?_⟩, ?_⟩, ?_⟩
  · exact decimalText_of_roundTo h q
  · exact ofDecimal?_eq_some_iff.mpr (isDecimal_decimalLiteral places q)
  · exact isShort_unitsText places _
  · exact fun r => decimalText_inj h
  · exact fun h => if_neg (not_le.mpr h)

/-- Both `-2/3` and `-669/1000` are written as `-0.67`. -/
theorem decimalText_follows_rounding_twoThirds :
    2 ≤ placesLimit ∧
      (∃ text, decimalText 2 (-2 / 3) = .ok (sign (roundTo 2 (-2 / 3) < 0) ++ text) ∧
        ofDecimal? text = some |roundTo 2 (-2 / 3)| ∧ IsShort 2 text) ∧
      decimalText 2 (-2 / 3) = decimalText 2 (-669 / 1000) ∧
      placesLimit < 65535 ∧ decimalText 65535 (-2 / 3) = .error .tooManyPlaces := by
  have hroom : 2 ≤ placesLimit := by decide
  have hlong : placesLimit < 65535 := by decide
  obtain ⟨htext, hequal⟩ := (decimalText_follows_rounding 2 (-2 / 3)).2.1 hroom
  refine ⟨hroom, htext, (hequal _).mpr ?_, hlong, ?_⟩
  · decide +kernel
  · exact (decimalText_follows_rounding 65535 (-2 / 3)).2.2 hlong

end Written

end LinearSystems.Number
