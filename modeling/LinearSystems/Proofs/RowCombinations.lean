import LinearSystems.Matrix
import Mathlib.Algebra.BigOperators.Fin
import Mathlib.Algebra.BigOperators.Ring.Finset
import Mathlib.Algebra.Order.Field.Rat
import Mathlib.Tactic.Ring

/-!
# Combinations of rows

A row is read at a point `x` and at a scale `t` of its constant: `Row.gap x t` is the
left-hand side less `t` times the right-hand side. At scale one it vanishes where the
equation of the row holds, at scale zero where its homogeneous equation does.

Elimination replaces rows by multiples and differences of rows. What it keeps is stated
for any property that passes to these, `Row.IsHereditary`, so that one proof about
elimination serves solutions, homogeneous solutions and the span of the rows.

* `gap_scaled`, `gap_minus`: the gap is linear in the row.
* `gap_add`, `gap_smul`: the gap is linear in the point and the scale together.
* `gap_moved`, `gap_eq_add_difference`: the gaps at two points differ by a homogeneous one.
* `RowEquivalent`: two lists of rows from which the same hereditary properties follow.
-/

namespace LinearSystems

open Finset

variable {n : Nat}

namespace Row

/-- The left-hand side of a row at a point, less `t` times its right-hand side. -/
def gap (x : Fin n → Rat) (t : Rat) (r : Row n) : Rat :=
  ∑ c, r.coefficient c * x c - r.constant * t

theorem gap_scaled (x : Fin n → Rat) (t q : Rat) (r : Row n) :
    (r.scaled q).gap x t = r.gap x t * q := by
  simp only [gap, coefficient_scaled, constant_scaled, sub_mul, sum_mul]
  congr 1
  · apply sum_congr rfl
    intro c _
    ring
  · ring

theorem gap_minus (x : Fin n → Rat) (t q : Rat) (r p : Row n) :
    (r.minus q p).gap x t = r.gap x t - q * p.gap x t := by
  have hsum : ∑ c, (r.coefficient c - q * p.coefficient c) * x c =
      ∑ c, r.coefficient c * x c - q * ∑ c, p.coefficient c * x c := by
    rw [mul_sum, ← sum_sub_distrib]
    apply sum_congr rfl
    intro c _
    ring
  simp only [gap, coefficient_minus, constant_minus, hsum]
  ring

theorem gap_add (x y : Fin n → Rat) (s t : Rat) (r : Row n) :
    r.gap (x + y) (s + t) = r.gap x s + r.gap y t := by
  simp only [gap, Pi.add_apply, mul_add, sum_add_distrib]
  ring

/-- Where a point is moved, the gap of the row changes by that of its homogeneous equation. -/
theorem gap_moved (x y : Fin n → Rat) (t : Rat) (r : Row n) :
    r.gap (x + y) t = r.gap x t + r.gap y 0 := by
  rw [← gap_add, add_zero]

theorem gap_eq_add_difference (x z : Fin n → Rat) (t : Rat) (r : Row n) :
    r.gap x t = r.gap z t + r.gap (x - z) 0 := by
  rw [← gap_moved, add_sub_cancel]

theorem gap_smul (x : Fin n → Rat) (t q : Rat) (r : Row n) :
    r.gap (q • x) (q * t) = q * r.gap x t := by
  simp only [gap, Pi.smul_apply, smul_eq_mul, mul_sub, mul_sum]
  congr 1
  · apply sum_congr rfl
    intro c _
    ring
  · ring

@[simp] theorem gap_zero_point (t : Rat) (r : Row n) : r.gap 0 t = -(r.constant * t) := by
  simp [gap]

@[simp] theorem gap_single (c : Fin n) (r : Row n) :
    r.gap (Pi.single c 1) 0 = r.coefficient c := by
  simp [gap, Pi.single_apply]

theorem gap_of_coefficients_zero {x : Fin n → Rat} {t : Rat} {r : Row n}
    (h : ∀ c, r.coefficient c = 0) : r.gap x t = -(r.constant * t) := by
  simp [gap, h]

theorem ext_coefficient {r p : Row n} (hc : ∀ c, r.coefficient c = p.coefficient c)
    (hk : r.constant = p.constant) : r = p := by
  obtain ⟨v, k⟩ := r
  obtain ⟨w, l⟩ := p
  have hvw : v = w := by
    ext i hi
    exact hc ⟨i, hi⟩
  rw [hvw]
  exact congrArg (Row.mk w) hk

/-- A property that rows pass on to their multiples and differences. -/
structure IsHereditary (P : Row n → Prop) : Prop where
  scaled : ∀ {r : Row n} (q : Rat), P r → P (r.scaled q)
  minus : ∀ {r p : Row n} (q : Rat), P r → P p → P (r.minus q p)

theorem isHereditary_gap (x : Fin n → Rat) (t : Rat) :
    IsHereditary fun r : Row n => r.gap x t = 0 where
  scaled q hr := by rw [gap_scaled, hr, zero_mul]
  minus q hr hp := by rw [gap_minus, hr, hp, mul_zero, sub_zero]

theorem coefficient_cleared_of_zero {r p : Row n} {c d : Fin n} (h : p.coefficient d = 0) :
    (r.cleared c p).coefficient d = r.coefficient d := by
  rw [cleared, coefficient_minus, h, mul_zero, sub_zero]

theorem coefficient_cleared_self {r p : Row n} {c : Fin n} (h : p.coefficient c = 1) :
    (r.cleared c p).coefficient c = 0 := by
  rw [cleared, coefficient_minus, h, mul_one, sub_self]

/-- A row without an entry in the column is not changed. -/
theorem cleared_of_coefficient_eq_zero {r p : Row n} {c : Fin n} (h : r.coefficient c = 0) :
    r.cleared c p = r := by
  apply ext_coefficient
  · intro d
    rw [cleared, coefficient_minus, h, zero_mul, sub_zero]
  · rw [cleared, constant_minus, h, zero_mul, sub_zero]

/-- A row is regained from what is left of it after a column was cleared. -/
theorem minus_cleared (r p : Row n) (c : Fin n) :
    (r.cleared c p).minus (-r.coefficient c) p = r := by
  apply ext_coefficient
  · intro d
    simp only [cleared, coefficient_minus]
    ring
  · simp only [cleared, constant_minus]
    ring

theorem scaled_inv_scaled {r : Row n} {q : Rat} (hq : q ≠ 0) : (r.scaled q⁻¹).scaled q = r := by
  apply ext_coefficient
  · intro d
    rw [coefficient_scaled, coefficient_scaled, mul_assoc, inv_mul_cancel₀ hq, mul_one]
  · rw [constant_scaled, constant_scaled, mul_assoc, inv_mul_cancel₀ hq, mul_one]

end Row

/-! ## Equivalent lists of rows -/

/-- The same hereditary properties hold of all rows of the one list and of the other. -/
def RowEquivalent (l l' : List (Row n)) : Prop :=
  ∀ P : Row n → Prop, Row.IsHereditary P → ((∀ r ∈ l, P r) ↔ ∀ r ∈ l', P r)

namespace RowEquivalent

variable {l l' l'' : List (Row n)}

theorem trans (h : RowEquivalent l l') (h' : RowEquivalent l' l'') : RowEquivalent l l'' :=
  fun P hP => (h P hP).trans (h' P hP)

theorem of_perm (h : l.Perm l') : RowEquivalent l l' := by
  intro P _
  constructor
  · intro hl r hr
    exact hl r (h.mem_iff.mpr hr)
  · intro hl r hr
    exact hl r (h.mem_iff.mp hr)

theorem gap_iff (h : RowEquivalent l l') (x : Fin n → Rat) (t : Rat) :
    (∀ r ∈ l, r.gap x t = 0) ↔ ∀ r ∈ l', r.gap x t = 0 :=
  h _ (Row.isHereditary_gap x t)

end RowEquivalent

end LinearSystems
