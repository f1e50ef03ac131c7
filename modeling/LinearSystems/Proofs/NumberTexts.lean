import LinearSystems.Number
import LinearSystems.Proofs.NumberGrammar

/-!
# Numbers as text

A number that is not negative is written as digits, or as digits, a slash and more digits, and
reading that text gives the number back. A negative number has a minus sign in front, which no
literal can have.

* `mem_fractionText`: the characters of a fraction without its sign.
* `ofText?_fractionText`: a fraction is read as it is written.
* `reading_follows_grammar`: what is read, and that it contains all that is written.
-/

namespace LinearSystems.Number

/-! ## Digits -/

theorem isDigit_of_mem_digits {n : Nat} {c : Char} (h : c ∈ digits n) : c.isDigit = true :=
  Nat.isDigit_of_mem_toDigits (by decide) (by decide) h

theorem digits_ne_nil (n : Nat) : digits n ≠ [] := Nat.toDigits_ne_nil

theorem exists_digits_eq_cons (n : Nat) :
    ∃ c rest, digits n = c :: rest ∧ ∀ d ∈ c :: rest, d.isDigit = true := by
  obtain ⟨c, rest, hdigits⟩ := List.exists_cons_of_ne_nil (digits_ne_nil n)
  exact ⟨c, rest, hdigits, fun d hd => isDigit_of_mem_digits (hdigits ▸ hd)⟩

theorem digits_eq_append {n : Nat} (h : 10 ≤ n) :
    digits n = digits (n / 10) ++ digits (n % 10) := by
  rw [digits, digits, digits, Nat.toDigits_append_toDigits (by decide)
    (Nat.div_pos h (by decide)) (Nat.mod_lt n (by decide)), Nat.div_add_mod]

theorem isDecimal_digits (n : Nat) : IsDecimal (digits n) n := by
  have hvalue : Nat.ofDigitChars 10 (digits n) 0 = n := Nat.ofDigitChars_ten_toDigits
  have hdigits := IsDecimal.integer (digits_ne_nil n) fun c => isDigit_of_mem_digits
  rwa [hvalue] at hdigits

/-! ## Fractions -/

theorem fractionText_of_nonneg {q : Rat} (h : 0 ≤ q) : fractionText q =
    digits q.num.natAbs ++ if q.den = 1 then [] else '/' :: digits q.den := by
  have hnum : ¬ q.num < 0 := by
    rw [not_lt, Rat.num_nonneg]
    exact h
  simp [fractionText, sign, hnum]

theorem fractionText_of_neg {q : Rat} (h : q < 0) : fractionText q = '-' :: fractionText (-q) := by
  have hnum : q.num < 0 := by
    rw [← not_le, Rat.num_nonneg, not_le]
    exact h
  rw [fractionText_of_nonneg (neg_nonneg.mpr h.le)]
  simp [fractionText, sign, hnum]

theorem mem_fractionText {q : Rat} (h : 0 ≤ q) {c : Char} (hc : c ∈ fractionText q) :
    c.isDigit = true ∨ c = '/' := by
  rw [fractionText_of_nonneg h, List.mem_append] at hc
  rcases hc with hc | hc
  · exact Or.inl (isDigit_of_mem_digits hc)
  · split at hc
    · cases hc
    · rcases List.mem_cons.mp hc with rfl | hc
      · exact Or.inr rfl
      · exact Or.inl (isDigit_of_mem_digits hc)

/-- A fraction that is not negative starts with a digit. -/
theorem exists_fractionText_eq_cons {q : Rat} (h : 0 ≤ q) :
    ∃ c rest, fractionText q = c :: rest ∧ c.isDigit = true := by
  obtain ⟨c, rest, hdigits, hdigit⟩ := exists_digits_eq_cons q.num.natAbs
  refine ⟨c, _, by rw [fractionText_of_nonneg h, hdigits, List.cons_append], ?_⟩
  exact hdigit c List.mem_cons_self

theorem natAbs_num_div_den {q : Rat} (h : 0 ≤ q) : (q.num.natAbs : Rat) / q.den = q := by
  have hnum : ((q.num.natAbs : Int) : Rat) = q.num :=
    congrArg _ (Int.natAbs_of_nonneg (Rat.num_nonneg.mpr h))
  rw [← Int.cast_natCast, hnum, Rat.num_div_den]

theorem isNumber_fractionText {q : Rat} (h : 0 ≤ q) : IsNumber (fractionText q) q := by
  have hvalue := natAbs_num_div_den h
  rw [fractionText_of_nonneg h]
  split
  · next hden =>
    rw [hden, Nat.cast_one, div_one] at hvalue
    have hinteger := IsNumber.decimal (isDecimal_digits q.num.natAbs)
    rwa [hvalue, ← List.append_nil (digits _)] at hinteger
  · have hden : (q.den : Rat) ≠ 0 := Nat.cast_ne_zero.mpr q.den_nz
    have hquotient := (IsNumber.decimal (isDecimal_digits q.num.natAbs)).quotient
      (isDecimal_digits q.den) hden
    rwa [hvalue] at hquotient

theorem ofText?_fractionText {q : Rat} (h : 0 ≤ q) : ofText? (fractionText q) = some q :=
  (isNumber_fractionText h).ofText?_eq

/-- **Numbers are read by their grammar.** A text is read as a number just if the grammar has it,
with the value that the grammar gives, and is not read otherwise. In particular a number that is
not negative is read as it is written. -/
theorem reading_follows_grammar :
    (∀ text q, ofText? text = some q ↔ IsNumber text q) ∧
      (∀ text, ofText? text = none ↔ ∀ q, ¬ IsNumber text q) ∧
      ∀ q : Rat, 0 ≤ q → ofText? (fractionText q) = some q := by
  refine ⟨fun text q => ofText?_eq_some_iff, fun text => ?_, fun q h => ofText?_fractionText h⟩
  rw [Option.eq_none_iff_forall_ne_some]
  exact forall_congr' fun q => not_congr ofText?_eq_some_iff

/-- The number `,5/2./03` is a twelfth, and `1/0.00` is none. -/
theorem reading_follows_grammar_twelfth :
    IsNumber ",5/2./03".toList (1 / 12) ∧ (∀ q, ¬ IsNumber "1/0.00".toList q) ∧
      (0 : Rat) ≤ 1 / 12 ∧ ofText? (fractionText (1 / 12)) = some (1 / 12) := by
  obtain ⟨hsome, hnone, hwritten⟩ := reading_follows_grammar
  have hnonneg : (0 : Rat) ≤ 1 / 12 := by decide +kernel
  refine ⟨(hsome _ _).mp ?_, (hnone _).mp ?_, hnonneg, hwritten _ hnonneg⟩
  · decide +kernel
  · decide +kernel

end LinearSystems.Number
