import LinearSystems.Number
import LinearSystems.Proofs.TextPieces
import Mathlib.Algebra.Order.Ring.Rat
import Mathlib.Data.Rat.Lemmas

/-!
# The grammar of numbers

A decimal is digits, with at most one separator before, among or after them. A number is a
decimal, or a number divided by a decimal that is not zero, with a slash between the two. The
texts that are read as numbers are just those of the grammar, with the values that it gives.

Reading cuts a text at all of its slashes, and each piece at its separators. The grammar has no
pieces: it takes the last decimal off a number, and the digits of a decimal as they stand. The
two meet in what a cut does to the pieces of a text.

* `Number.IsDecimal`, `Number.IsNumber`: texts and their values.
* `Number.ofDecimal?_eq_some_iff`, `Number.ofText?_eq_some_iff`: what is read.
-/

namespace LinearSystems

namespace Number

/-! ## Decimals -/

/-- The decimals and their values: the digits as an integer, divided by ten for each of them that
comes after the separator. -/
inductive IsDecimal : List Char → Rat → Prop where
  | integer {whole : List Char} (ne_nil : whole ≠ [])
      (isDigit : ∀ c ∈ whole, c.isDigit = true) :
      IsDecimal whole (Nat.ofDigitChars 10 whole 0)
  | separated {whole fraction : List Char} {separator : Char} (ne_nil : whole ≠ [])
      (isSeparator : separator = '.' ∨ separator = ',')
      (isDigit : ∀ c ∈ whole ++ fraction, c.isDigit = true) :
      IsDecimal (whole ++ separator :: fraction)
        ((Nat.ofDigitChars 10 (whole ++ fraction) 0 : Rat) / 10 ^ fraction.length)
  | fraction {fraction : List Char} {separator : Char} (ne_nil : fraction ≠ [])
      (isSeparator : separator = '.' ∨ separator = ',')
      (isDigit : ∀ c ∈ fraction, c.isDigit = true) :
      IsDecimal (separator :: fraction)
        ((Nat.ofDigitChars 10 fraction 0 : Rat) / 10 ^ fraction.length)

/-- A digit is none of the other characters. -/
theorem beq_eq_false_of_isDigit {c d : Char} (hc : c.isDigit = true) (hd : d.isDigit = false) :
    (c == d) = false := by
  apply beq_eq_false_iff_ne.mpr
  rintro rfl
  rw [hc] at hd
  cases hd

theorem isSeparator_eq_true_iff {c : Char} : isSeparator c = true ↔ c = '.' ∨ c = ',' := by
  rw [isSeparator, Bool.or_eq_true, beq_iff_eq, beq_iff_eq]

theorem isSeparator_of_isDigit {c : Char} (h : c.isDigit = true) : isSeparator c = false := by
  rw [isSeparator, beq_eq_false_of_isDigit h rfl, beq_eq_false_of_isDigit h rfl]
  rfl

theorem decimalValue_eq (whole fraction : List Char) : decimalValue whole fraction =
    (Nat.ofDigitChars 10 (whole ++ fraction) 0 : Rat) / 10 ^ fraction.length := by
  rw [decimalValue, powerOfTen, Nat.pow_eq, Nat.cast_pow, Nat.cast_ofNat]

theorem ofParts?_eq_some_iff {whole fraction : List Char} {q : Rat} :
    ofParts? whole fraction = some q ↔ (whole ≠ [] ∨ fraction ≠ []) ∧
      (∀ c ∈ whole ++ fraction, c.isDigit = true) ∧
        (Nat.ofDigitChars 10 (whole ++ fraction) 0 : Rat) / 10 ^ fraction.length = q := by
  have hempty : (whole.isEmpty && fraction.isEmpty) = true ↔ ¬ (whole ≠ [] ∨ fraction ≠ []) := by
    rw [Bool.and_eq_true, List.isEmpty_iff, List.isEmpty_iff, not_or, not_not, not_not]
  rw [ofParts?]
  split
  · next hnone => exact ⟨fun h => absurd h (by simp), fun h => absurd h.1 (hempty.mp hnone)⟩
  · next hsome =>
    split
    · next hdigits =>
      rw [Option.some_inj, decimalValue_eq]
      exact ⟨fun h => ⟨not_not.mp (mt hempty.mpr hsome), List.all_eq_true.mp hdigits, h⟩,
        fun h => h.2.2⟩
    · next hdigits =>
      exact ⟨fun h => absurd h (by simp), fun h => absurd (List.all_eq_true.mpr h.2.1) hdigits⟩

section Decimals

variable {text whole fraction : List Char} {separator : Char} {q : Rat}

theorem ofDecimal?_whole (h : ∀ c ∈ whole, isSeparator c = false) :
    ofDecimal? whole = ofParts? whole [] := by
  rw [ofDecimal?, Text.pieces_eq_singleton h]

theorem ofDecimal?_separated (hwhole : ∀ c ∈ whole, isSeparator c = false)
    (hseparator : isSeparator separator = true)
    (hfraction : ∀ c ∈ fraction, isSeparator c = false) :
    ofDecimal? (whole ++ separator :: fraction) = ofParts? whole fraction := by
  rw [ofDecimal?, Text.pieces_append_cons hwhole hseparator, Text.pieces_eq_singleton hfraction]

theorem ofDecimal?_eq_some_of_digits (hseparator : separator = '.' ∨ separator = ',')
    (hne : whole ≠ [] ∨ fraction ≠ []) (hdigits : ∀ c ∈ whole ++ fraction, c.isDigit = true) :
    ofDecimal? (whole ++ separator :: fraction) =
      some ((Nat.ofDigitChars 10 (whole ++ fraction) 0 : Rat) / 10 ^ fraction.length) := by
  have hnone : ∀ c ∈ whole ++ fraction, isSeparator c = false :=
    fun c hc => isSeparator_of_isDigit (hdigits c hc)
  rw [List.forall_mem_append] at hnone
  rw [ofDecimal?_separated hnone.1 (isSeparator_eq_true_iff.mpr hseparator) hnone.2]
  exact ofParts?_eq_some_iff.mpr ⟨hne, hdigits, rfl⟩

theorem IsDecimal.ofDecimal?_eq (h : IsDecimal text q) : ofDecimal? text = some q := by
  cases h with
  | integer hne hdigits =>
      rw [ofDecimal?_whole fun c hc => isSeparator_of_isDigit (hdigits c hc)]
      refine ofParts?_eq_some_iff.mpr ⟨Or.inl hne, ?_, ?_⟩
      · rwa [List.append_nil]
      · rw [List.append_nil, List.length_nil, pow_zero, div_one]
  | separated hne hseparator hdigits =>
      exact ofDecimal?_eq_some_of_digits hseparator (Or.inl hne) hdigits
  | fraction hne hseparator hdigits =>
      exact @ofDecimal?_eq_some_of_digits [] _ _ hseparator (Or.inr hne) hdigits

theorem isDecimal_of_ofDecimal? (h : ofDecimal? text = some q) : IsDecimal text q := by
  rcases Text.cut_cases isSeparator text with hnone | ⟨whole, separator, rest, rfl, hwhole, hcut⟩
  · rw [ofDecimal?_whole hnone] at h
    obtain ⟨hne, hdigits, rfl⟩ := ofParts?_eq_some_iff.mp h
    rw [List.append_nil] at hdigits ⊢
    rw [List.length_nil, pow_zero, div_one]
    exact .integer (hne.resolve_right fun hnil => hnil rfl) hdigits
  rcases Text.cut_cases isSeparator rest with hnone | ⟨middle, cut, rest, rfl, hmiddle, hcut'⟩
  · rw [ofDecimal?_separated hwhole hcut hnone] at h
    obtain ⟨hne, hdigits, rfl⟩ := ofParts?_eq_some_iff.mp h
    have hseparator := isSeparator_eq_true_iff.mp hcut
    cases whole with
    | nil => exact .fraction (hne.resolve_left fun hnil => hnil rfl) hseparator hdigits
    | cons c whole => exact .separated (List.cons_ne_nil c whole) hseparator hdigits
  · -- With two separators there are at least three pieces.
    obtain ⟨piece, more, hpieces⟩ :=
      List.exists_cons_of_ne_nil (Text.pieces_ne_nil isSeparator rest)
    rw [ofDecimal?, Text.pieces_append_cons hwhole hcut, Text.pieces_append_cons hmiddle hcut',
      hpieces] at h
    cases h

/-- The decimals that are read are those of the grammar. -/
theorem ofDecimal?_eq_some_iff : ofDecimal? text = some q ↔ IsDecimal text q :=
  ⟨isDecimal_of_ofDecimal?, IsDecimal.ofDecimal?_eq⟩

end Decimals

/-! ## Numbers -/

/-- The numbers and their values: decimals, divided from left to right. -/
inductive IsNumber : List Char → Rat → Prop where
  | decimal {text : List Char} {q : Rat} (h : IsDecimal text q) : IsNumber text q
  | quotient {text divisor : List Char} {q r : Rat} (h : IsNumber text q)
      (hdivisor : IsDecimal divisor r) (ne_zero : r ≠ 0) :
      IsNumber (text ++ '/' :: divisor) (q / r)

section Numbers

variable {text divisor : List Char} {q r : Rat}

theorem IsDecimal.beq_slash (h : IsDecimal text q) : ∀ c ∈ text, (c == '/') = false := by
  have hdigit : ∀ c : Char, c.isDigit = true → (c == '/') = false :=
    fun c hc => beq_eq_false_of_isDigit hc rfl
  have hseparator : ∀ c : Char, c = '.' ∨ c = ',' → (c == '/') = false := by
    rintro c (rfl | rfl) <;> rfl
  cases h with
  | integer _ hdigits => exact fun c hc => hdigit c (hdigits c hc)
  | separated _ hsep hdigits =>
      rw [List.forall_mem_append] at hdigits
      rw [List.forall_mem_append, List.forall_mem_cons]
      exact ⟨fun c hc => hdigit c (hdigits.1 c hc), hseparator _ hsep,
        fun c hc => hdigit c (hdigits.2 c hc)⟩
  | fraction _ hsep hdigits =>
      exact List.forall_mem_cons.mpr ⟨hseparator _ hsep, fun c hc => hdigit c (hdigits c hc)⟩

theorem divideBy?_eq_some_iff :
    divideBy? q divisor = some r ↔ ∃ d, ofDecimal? divisor = some d ∧ d ≠ 0 ∧ q / d = r := by
  rw [divideBy?]
  cases ofDecimal? divisor with
  | none => simp
  | some d =>
      by_cases hzero : d = 0
      · simp [hzero]
      · simp [hzero]

theorem ofText?_of_forall (h : ∀ c ∈ text, (c == '/') = false) :
    ofText? text = ofDecimal? text := by
  rw [ofText?, Text.pieces_eq_singleton h]
  exact bind_pure (ofDecimal? text)

/-- The last divisor is divided by last. -/
theorem ofText?_append (text : List Char) (h : ∀ c ∈ divisor, (c == '/') = false) :
    ofText? (text ++ '/' :: divisor) = (ofText? text).bind (divideBy? · divisor) := by
  obtain ⟨first, divisors, hpieces⟩ :=
    List.exists_cons_of_ne_nil (Text.pieces_ne_nil (· == '/') text)
  have happend : Text.pieces (· == '/') (text ++ '/' :: divisor) =
      first :: (divisors ++ [divisor]) := by
    rw [Text.pieces_append (· == '/') text divisor (beq_self_eq_true '/'),
      Text.pieces_eq_singleton h, hpieces]
    rfl
  rw [ofText?, ofText?, happend, hpieces]
  show (ofDecimal? first).bind (fun value => (divisors ++ [divisor]).foldlM divideBy? value) =
    ((ofDecimal? first).bind fun value => divisors.foldlM divideBy? value).bind _
  rw [Option.bind_assoc]
  congr 1
  funext value
  rw [List.foldlM_append]
  congr 1
  funext quotient
  exact bind_pure (divideBy? quotient divisor)

theorem IsNumber.ofText?_eq (h : IsNumber text q) : ofText? text = some q := by
  induction h with
  | decimal h => rw [ofText?_of_forall h.beq_slash, ofDecimal?_eq_some_iff.mpr h]
  | quotient _ hdivisor hne ih =>
      rw [ofText?_append _ hdivisor.beq_slash, ih, Option.bind_some]
      exact divideBy?_eq_some_iff.mpr ⟨_, ofDecimal?_eq_some_iff.mpr hdivisor, hne, rfl⟩

/-- A number divided by decimals, one after another. -/
theorem IsNumber.divided (h : IsNumber text q) {divisors : List (List Char)}
    (hdivisors : divisors.foldlM divideBy? q = some r) :
    IsNumber (text ++ divisors.flatMap ('/' :: ·)) r := by
  induction divisors generalizing text q with
  | nil =>
      rw [List.flatMap_nil, List.append_nil]
      rwa [← Option.some.inj hdivisors]
  | cons divisor divisors ih =>
      rw [List.foldlM_cons] at hdivisors
      obtain ⟨quotient, hquotient, hrest⟩ := Option.bind_eq_some_iff.mp hdivisors
      obtain ⟨d, hd, hne, rfl⟩ := divideBy?_eq_some_iff.mp hquotient
      rw [List.flatMap_cons, ← List.append_assoc]
      exact ih (h.quotient (ofDecimal?_eq_some_iff.mp hd) hne) hrest

theorem isNumber_of_ofText? (h : ofText? text = some q) : IsNumber text q := by
  obtain ⟨first, divisors, hpieces⟩ :=
    List.exists_cons_of_ne_nil (Text.pieces_ne_nil (· == '/') text)
  rw [ofText?, hpieces] at h
  obtain ⟨value, hvalue, hdivisors⟩ := Option.bind_eq_some_iff.mp h
  rw [Text.eq_of_pieces hpieces]
  exact (IsNumber.decimal (ofDecimal?_eq_some_iff.mp hvalue)).divided hdivisors

/-- The numbers that are read are those of the grammar. -/
theorem ofText?_eq_some_iff : ofText? text = some q ↔ IsNumber text q :=
  ⟨isNumber_of_ofText?, IsNumber.ofText?_eq⟩

end Numbers

end Number

end LinearSystems
