import LinearSystems.Proofs.ReducedForm
import Mathlib.Algebra.BigOperators.Ring.List
import Mathlib.Algebra.Order.BigOperators.Group.List
import Mathlib.Tactic.Linarith
import Mathlib.Tactic.Positivity

/-!
# Normal equations

The gaps of the normal equations are products of the gaps of the rows they are made from.
Paired with the entries of a point `y` they give the sum of `r.gap y 0 * r.gap x t` over
all rows `r` (`sum_mul_gap_normalRow`), and with `y = x` and `t = 0` a sum of squares.
This is all that is needed of them:

* `homogeneous_normalEquations_iff`: they have the homogeneous solutions of the rows.
* `solution_normalEquations_iff`: they have the solutions of the rows, if there are any.
* `isContradictory_eq_false_of_normalEquations`: their reduced form is never contradictory.
* `normalEquations_iff_least`: their solutions are the points with the least sum of
  squared gaps.
* `exists_leastSquares`: the least squares reduction always has a result.
-/

namespace LinearSystems

open Finset

variable {n : Nat}

namespace AugmentedMatrix

/-! ## Gaps of the normal equations -/

/-- The normal equation of column `i`. -/
def normalRow (m : AugmentedMatrix n) (i : Fin n) : Row n where
  coefficients := Vector.ofFn fun j => (m.rows.map fun r => r.coefficient i * r.coefficient j).sum
  constant := (m.rows.map fun r => r.coefficient i * r.constant).sum

theorem mem_normalEquations {m : AugmentedMatrix n} {row : Row n} :
    row ∈ m.normalEquations.rows ↔ ∃ i, m.normalRow i = row := by
  simp only [normalEquations, List.mem_map, List.mem_finRange, true_and]
  rfl

theorem coefficient_normalRow (m : AugmentedMatrix n) (i j : Fin n) :
    (m.normalRow i).coefficient j =
      (m.rows.map fun r => r.coefficient i * r.coefficient j).sum := by
  simp [normalRow, Row.coefficient]

theorem sum_map_sum_comm {α : Type} (l : List α) (f : Fin n → α → Rat) :
    ∑ i, (l.map (f i)).sum = (l.map fun a => ∑ i, f i a).sum := by
  induction l with
  | nil => simp
  | cons a rest ih => simp only [List.map_cons, List.sum_cons, sum_add_distrib, ih]

theorem sum_map_sub {α : Type} (l : List α) (f g : α → Rat) :
    (l.map fun a => f a - g a).sum = (l.map f).sum - (l.map g).sum := by
  induction l with
  | nil => simp
  | cons a rest ih =>
      simp only [List.map_cons, List.sum_cons, ih]
      ring

theorem gap_normalRow (m : AugmentedMatrix n) (i : Fin n) (x : Fin n → Rat) (t : Rat) :
    (m.normalRow i).gap x t = (m.rows.map fun r => r.coefficient i * r.gap x t).sum := by
  have hleft : ∑ j, (m.normalRow i).coefficient j * x j =
      (m.rows.map fun r => r.coefficient i * ∑ j, r.coefficient j * x j).sum := by
    simp only [coefficient_normalRow, ← List.sum_map_mul_right, sum_map_sum_comm, mul_sum,
      mul_assoc]
  have hright : (m.normalRow i).constant * t =
      (m.rows.map fun r => r.coefficient i * (r.constant * t)).sum := by
    rw [normalRow, ← List.sum_map_mul_right]
    simp only [mul_assoc]
  rw [Row.gap, hleft, hright, ← sum_map_sub]
  simp only [Row.gap, mul_sub]

theorem sum_mul_gap_normalRow (m : AugmentedMatrix n) (y x : Fin n → Rat) (t : Rat) :
    ∑ i, y i * (m.normalRow i).gap x t = (m.rows.map fun r => r.gap y 0 * r.gap x t).sum := by
  simp only [gap_normalRow, ← List.sum_map_mul_left, sum_map_sum_comm]
  congr 1
  apply List.map_congr_left
  intro r _
  have hy : r.gap y 0 = ∑ i, r.coefficient i * y i := by
    rw [Row.gap, mul_zero, sub_zero]
  rw [hy, sum_mul]
  apply sum_congr rfl
  intro i _
  ring

/-! ## Homogeneous solutions -/

theorem nonneg_of_mem_map_mul_self {α : Type} {l : List α} {f : α → Rat} :
    ∀ q ∈ l.map fun a => f a * f a, 0 ≤ q := by
  intro q hq
  obtain ⟨a, -, rfl⟩ := List.mem_map.mp hq
  exact mul_self_nonneg _

theorem eq_zero_of_sum_mul_self {α : Type} {l : List α} {f : α → Rat}
    (h : (l.map fun a => f a * f a).sum = 0) : ∀ a ∈ l, f a = 0 := by
  intro a ha
  have hzero := List.all_zero_of_le_zero_le_of_sum_eq_zero nonneg_of_mem_map_mul_self h
    (List.mem_map_of_mem ha)
  exact mul_self_eq_zero.mp hzero

theorem gap_normalEquations_eq_zero {m : AugmentedMatrix n} {x : Fin n → Rat} {t : Rat}
    (h : ∀ r ∈ m.rows, r.gap x t = 0) : ∀ row ∈ m.normalEquations.rows, row.gap x t = 0 := by
  intro row hrow
  obtain ⟨i, rfl⟩ := mem_normalEquations.mp hrow
  rw [gap_normalRow]
  apply List.sum_eq_zero
  intro q hq
  obtain ⟨r, hr, rfl⟩ := List.mem_map.mp hq
  rw [h r hr, mul_zero]

theorem homogeneous_normalEquations_iff (m : AugmentedMatrix n) (x : Fin n → Rat) :
    (∀ row ∈ m.normalEquations.rows, row.gap x 0 = 0) ↔ ∀ r ∈ m.rows, r.gap x 0 = 0 := by
  constructor
  · intro h
    apply eq_zero_of_sum_mul_self
    rw [← sum_mul_gap_normalRow]
    apply sum_eq_zero
    intro i _
    rw [h _ (mem_normalEquations.mpr ⟨i, rfl⟩), mul_zero]
  · exact gap_normalEquations_eq_zero

/-- Where the rows have a solution, the normal equations have no other ones. -/
theorem solution_normalEquations_iff {m : AugmentedMatrix n}
    (hexists : ∃ z : Fin n → Rat, ∀ r ∈ m.rows, r.gap z 1 = 0) (x : Fin n → Rat) :
    (∀ row ∈ m.normalEquations.rows, row.gap x 1 = 0) ↔ ∀ r ∈ m.rows, r.gap x 1 = 0 := by
  obtain ⟨z, hz⟩ := hexists
  have hshift := Row.gap_eq_add_difference x z 1
  constructor
  · intro hx row hrow
    -- The difference of the two points solves the homogeneous equations.
    have hdiff := (m.homogeneous_normalEquations_iff (x - z)).mp fun row hrow => by
      have hgap := hshift row
      rwa [hx row hrow, gap_normalEquations_eq_zero hz row hrow, zero_add, eq_comm] at hgap
    rw [hshift row, hz row hrow, hdiff row hrow, add_zero]
  · exact gap_normalEquations_eq_zero

/-! ## Consistency -/

/-- A row whose gaps are those of the rows of a matrix, each times its gap at a fixed point. -/
def IsWeightedBy (m : AugmentedMatrix n) (row : Row n) : Prop :=
  ∃ y : Fin n → Rat, ∀ (x : Fin n → Rat) (t : Rat),
    row.gap x t = (m.rows.map fun r => r.gap y 0 * r.gap x t).sum

theorem isWeightedBy_normalRow (m : AugmentedMatrix n) (i : Fin n) :
    m.IsWeightedBy (m.normalRow i) := by
  refine ⟨Pi.single i 1, fun x t => ?_⟩
  simp only [Row.gap_single]
  exact gap_normalRow m i x t

theorem isHereditary_isWeightedBy (m : AugmentedMatrix n) : Row.IsHereditary m.IsWeightedBy where
  scaled q h := by
    obtain ⟨y, hy⟩ := h
    refine ⟨q • y, fun x t => ?_⟩
    have hgap : ∀ r : Row n, r.gap (q • y) 0 = q * r.gap y 0 := by
      intro r
      rw [← Row.gap_smul, mul_zero]
    rw [Row.gap_scaled, hy, ← List.sum_map_mul_right]
    simp only [hgap]
    congr 1
    apply List.map_congr_left
    intro r _
    ring
  minus q h h' := by
    obtain ⟨y, hy⟩ := h
    obtain ⟨z, hz⟩ := h'
    refine ⟨y + (-q) • z, fun x t => ?_⟩
    have hgap : ∀ r : Row n, r.gap (y + (-q) • z) 0 = r.gap y 0 - q * r.gap z 0 := by
      intro r
      have hsmul := Row.gap_smul z 0 (-q) r
      rw [mul_zero] at hsmul
      rw [Row.gap_moved, hsmul]
      ring
    rw [Row.gap_minus, hy, hz, ← List.sum_map_mul_left, ← sum_map_sub]
    simp only [hgap]
    congr 1
    apply List.map_congr_left
    intro r _
    ring

/-- A weighted row without coefficients has no constant: its gap at the weights is a sum of
squares, so all weights are zero. -/
theorem IsWeightedBy.constant_eq_zero {m : AugmentedMatrix n} {row : Row n}
    (h : m.IsWeightedBy row) (hzero : ∀ c, row.coefficient c = 0) : row.constant = 0 := by
  obtain ⟨y, hy⟩ := h
  have hsquares : (m.rows.map fun r => r.gap y 0 * r.gap y 0).sum = 0 := by
    rw [← hy, Row.gap_of_coefficients_zero hzero, mul_zero, neg_zero]
  have hweights := eq_zero_of_sum_mul_self hsquares
  have hconstant := hy 0 1
  rw [Row.gap_zero_point, mul_one, List.sum_eq_zero] at hconstant
  · exact neg_eq_zero.mp hconstant
  · intro q hq
    obtain ⟨r, hr, rfl⟩ := List.mem_map.mp hq
    rw [hweights r hr, zero_mul]

theorem isContradictory_eq_false_of_normalEquations {m : AugmentedMatrix n} {r : Reduction n}
    (h : r.IsReduced) (hequiv : RowEquivalent r.rows m.normalEquations.rows) :
    r.isContradictory = false := by
  have hweighted : ∀ row ∈ r.rows, m.IsWeightedBy row := by
    apply (hequiv _ m.isHereditary_isWeightedBy).mpr
    intro row hrow
    obtain ⟨i, rfl⟩ := mem_normalEquations.mp hrow
    exact m.isWeightedBy_normalRow i
  apply h.isContradictory_eq_false_iff.mpr
  intro row hrow
  apply (hweighted row (List.mem_append_right _ hrow)).constant_eq_zero
  intro c
  exact h.rest row hrow c c.isLt

theorem exists_reduce_normalEquations (m : AugmentedMatrix n) :
    ∃ r, m.normalEquations.reduce = .ok r ∧ r.IsReduced ∧
      RowEquivalent r.rows m.normalEquations.rows ∧ r.isContradictory = false := by
  obtain ⟨r, hreduce, hreduced, hequiv⟩ := m.normalEquations.exists_reduce
  exact ⟨r, hreduce, hreduced, hequiv, isContradictory_eq_false_of_normalEquations hreduced hequiv⟩

theorem leastSquares_of_reduce {m : AugmentedMatrix n} {r : Reduction n}
    (hreduce : m.normalEquations.reduce = .ok r) (hcons : r.isContradictory = false) :
    m.leastSquares = .ok r := by
  have hclass : r.classify ≠ .inconsistent := by
    rw [ne_eq, Reduction.classify_eq_inconsistent_iff, hcons]
    exact Bool.false_ne_true
  unfold leastSquares
  simp only [hreduce, Except.mapError, bind, Except.bind, if_neg hclass]
  rfl

/-- **Least squares never fails.** Whatever the matrix, reducing its normal equations has a
result, the result is not inconsistent, and it is the least squares reduction. -/
theorem exists_leastSquares (m : AugmentedMatrix n) :
    ∃ r, m.normalEquations.reduce = .ok r ∧ r.classify ≠ .inconsistent ∧
      m.leastSquares = .ok r := by
  obtain ⟨r, hreduce, -, -, hcons⟩ := m.exists_reduce_normalEquations
  refine ⟨r, hreduce, ?_, leastSquares_of_reduce hreduce hcons⟩
  intro hclass
  rw [Reduction.classify_eq_inconsistent_iff, hcons] at hclass
  cases hclass

/-! ## Least sums of squares -/

/-- The sum of the squared gaps at a point. -/
def squaredGaps (m : AugmentedMatrix n) (x : Fin n → Rat) : Rat :=
  (m.rows.map fun r => r.gap x 1 ^ 2).sum

/-- From a solution of the normal equations the sum of squares only grows. -/
theorem squaredGaps_add (m : AugmentedMatrix n) {x : Fin n → Rat}
    (h : ∀ row ∈ m.normalEquations.rows, row.gap x 1 = 0) (y : Fin n → Rat) :
    m.squaredGaps (x + y) =
      m.squaredGaps x + (m.rows.map fun r => r.gap y 0 * r.gap y 0).sum := by
  have hcross : (m.rows.map fun r => r.gap y 0 * r.gap x 1).sum = 0 := by
    rw [← sum_mul_gap_normalRow]
    apply sum_eq_zero
    intro i _
    rw [h _ (mem_normalEquations.mpr ⟨i, rfl⟩), mul_zero]
  have hgap : ∀ r : Row n, r.gap (x + y) 1 ^ 2 =
      r.gap x 1 ^ 2 + r.gap y 0 * r.gap y 0 + 2 * (r.gap y 0 * r.gap x 1) := by
    intro r
    rw [Row.gap_moved]
    ring
  simp only [squaredGaps, hgap, List.sum_map_add, List.sum_map_mul_left, hcross, mul_zero,
    add_zero]

theorem normalEquations_iff_least (m : AugmentedMatrix n) (x : Fin n → Rat) :
    (∀ row ∈ m.normalEquations.rows, row.gap x 1 = 0) ↔
      ∀ y, m.squaredGaps x ≤ m.squaredGaps y := by
  constructor
  · intro h y
    have hsum := squaredGaps_add m h (y - x)
    rw [add_sub_cancel] at hsum
    have hnonneg : 0 ≤ (m.rows.map fun r => r.gap (y - x) 0 * r.gap (y - x) 0).sum :=
      List.sum_nonneg nonneg_of_mem_map_mul_self
    linarith
  · intro hleast
    -- Some point solves the normal equations, and `x` is no worse than it.
    obtain ⟨r, -, hreduced, hequiv, hcons⟩ := m.exists_reduce_normalEquations
    obtain ⟨z, hz⟩ := hreduced.exists_solution_iff.mpr hcons
    have hz := (hequiv.gap_iff z 1).mp hz
    have hsum := squaredGaps_add m hz (x - z)
    rw [add_sub_cancel] at hsum
    have hzero : (m.rows.map fun r => r.gap (x - z) 0 * r.gap (x - z) 0).sum = 0 := by
      apply le_antisymm
      · have hle := hleast z
        linarith
      · exact List.sum_nonneg nonneg_of_mem_map_mul_self
    have hdiff := (m.homogeneous_normalEquations_iff (x - z)).mpr (eq_zero_of_sum_mul_self hzero)
    intro row hrow
    rw [Row.gap_eq_add_difference x z, hz row hrow, hdiff row hrow, add_zero]

end AugmentedMatrix

end LinearSystems
