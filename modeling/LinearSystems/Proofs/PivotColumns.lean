import LinearSystems.Proofs.CanonicalForm
import Mathlib.Algebra.BigOperators.Field

/-!
# Pivot columns

A column gets a pivot just if it is not a sum of multiples of the columns to its left. The
columns meant are those of the matrix as it was given, although elimination looks at rows that
were changed already: what is kept from each visit to the next are the homogeneous solutions,
and a homogeneous solution that ends in a column says how the column is made from those to its
left.

So the free columns have nothing to do with the constants, with the order of the rows, or with
which of the rows that have an entry is chosen for a pivot.

* `AugmentedMatrix.IsDependentColumn`: a sum of multiples of the columns to the left.
* `AugmentedMatrix.isDependentColumn_iff`: the same, by homogeneous solutions.
* `AugmentedMatrix.ReducesTo.mem_pivotColumns_iff`: pivots after elimination with any choices.
* `AugmentedMatrix.exists_reduce_mem_pivotColumns_iff`: pivots after reduction, and what they do
  not depend on.
-/

namespace LinearSystems

open Finset

variable {n : Nat}

/-- The left-hand side of a row at a point that is zero to the right of a column. -/
theorem Row.gap_of_forall_gt {c : Fin n} {x : Fin n → Rat} (hx : ∀ d, c < d → x d = 0)
    (r : Row n) :
    r.gap x 0 = ∑ d with d < c, r.coefficient d * x d + r.coefficient c * x c := by
  have hright : ∑ d with ¬ d < c, r.coefficient d * x d = r.coefficient c * x c := by
    apply sum_eq_single_of_mem c (mem_filter.mpr ⟨mem_univ c, lt_irrefl c⟩)
    intro d hd hne
    have hlt : c < d := lt_of_le_of_ne (not_lt.mp (mem_filter.mp hd).2) (Ne.symm hne)
    rw [hx d hlt, mul_zero]
  rw [Row.gap, mul_zero, sub_zero, ← sum_filter_add_sum_filter_not univ (· < c), hright]

namespace AugmentedMatrix

variable {m m' : AugmentedMatrix n} {r r' : Reduction n} {c : Fin n}

/-! ## Dependent columns -/

/-- The column is a sum of multiples of the columns to its left. -/
def IsDependentColumn (m : AugmentedMatrix n) (c : Fin n) : Prop :=
  ∃ q : Fin n → Rat, ∀ row ∈ m.rows,
    row.coefficient c = ∑ d with d < c, q d * row.coefficient d

/-- A column depends on those to its left just if a homogeneous solution ends in it. -/
theorem isDependentColumn_iff : m.IsDependentColumn c ↔
    ∃ x : Fin n → Rat, (∀ row ∈ m.rows, row.gap x 0 = 0) ∧ x c ≠ 0 ∧ ∀ d, c < d → x d = 0 := by
  constructor
  · rintro ⟨q, hq⟩
    let x : Fin n → Rat := fun d => if d < c then q d else if d = c then -1 else 0
    have hleft : ∀ d < c, x d = q d := fun d hd => if_pos hd
    have hself : x c = -1 := by simp [x]
    have hright : ∀ d, c < d → x d = 0 := by
      intro d hd
      simp [x, not_lt_of_gt hd, ne_of_gt hd]
    refine ⟨x, fun row hrow => ?_, by simp [hself], hright⟩
    have hsum : ∑ d with d < c, row.coefficient d * x d = row.coefficient c := by
      rw [hq row hrow]
      apply sum_congr rfl
      intro d hd
      rw [hleft d (mem_filter.mp hd).2, mul_comm]
    rw [Row.gap_of_forall_gt hright, hsum, hself, mul_neg_one, add_neg_cancel]
  · rintro ⟨x, hx, hne, hright⟩
    refine ⟨fun d => -(x d / x c), fun row hrow => ?_⟩
    have hgap := hx row hrow
    rw [Row.gap_of_forall_gt hright] at hgap
    have hsum : ∑ d with d < c, -(x d / x c) * row.coefficient d =
        -(∑ d with d < c, row.coefficient d * x d) / x c := by
      rw [neg_div, sum_div, ← sum_neg_distrib]
      apply sum_congr rfl
      intro d _
      ring
    rw [hsum, eq_div_iff hne]
    linarith

/-- Whether a column depends on those to its left is a matter of the coefficients alone, and not
of the order of the rows. -/
theorem isDependentColumn_congr
    (h : (m.rows.map Row.coefficients).Perm (m'.rows.map Row.coefficients)) :
    m.IsDependentColumn c ↔ m'.IsDependentColumn c := by
  have hrows : ∀ (q : Fin n → Rat) (l : List (Row n)),
      (∀ row ∈ l, row.coefficient c = ∑ d with d < c, q d * row.coefficient d) ↔
        ∀ v ∈ l.map Row.coefficients, v[c] = ∑ d with d < c, q d * v[d] := by
    intro q l
    rw [List.forall_mem_map]
    rfl
  simp only [IsDependentColumn, hrows, h.mem_iff]

/-! ## Pivots -/

/-- Whichever rows are chosen on the way, the columns with a pivot are those that do not depend
on columns to their left. -/
theorem ReducesTo.mem_pivotColumns_iff (h : m.ReducesTo r) :
    c ∈ r.pivotColumns ↔ ¬ m.IsDependentColumn c := by
  rw [← not_iff_not, not_not, isDependentColumn_iff, h.isReduced.not_mem_pivotColumns_iff]
  simp only [h.isReduced.solvesPivots_zero_iff h.rowEquivalent]

theorem ReducesTo.pivotColumns_congr (h : m.ReducesTo r) (h' : m'.ReducesTo r')
    (hrows : (m.rows.map Row.coefficients).Perm (m'.rows.map Row.coefficients)) :
    r.pivotColumns = r'.pivotColumns := by
  apply h.isReduced.pivotColumns_eq_of_mem_iff h'.isReduced
  intro c
  rw [h.mem_pivotColumns_iff, h'.mem_pivotColumns_iff, isDependentColumn_congr hrows]

/-- **Pivot columns are told by the columns of coefficients.** Every matrix has a reduction, and a
column has a pivot in it just if the column is not a sum of multiples of the columns to its
left. Elimination that chooses other rows for its pivots, of a matrix that has other constants
and its rows in another order, gives the same columns with a pivot and the same free ones. -/
theorem exists_reduce_mem_pivotColumns_iff (m : AugmentedMatrix n) :
    ∃ r, m.reduce = .ok r ∧ m.ReducesTo r ∧
      (∀ c, c ∈ r.pivotColumns ↔ ¬ m.IsDependentColumn c) ∧
      ∀ (m' : AugmentedMatrix n) (r' : Reduction n), m'.ReducesTo r' →
        (m'.rows.map Row.coefficients).Perm (m.rows.map Row.coefficients) →
          r'.pivotColumns = r.pivotColumns ∧ r'.freeColumns = r.freeColumns := by
  obtain ⟨r, hreduce, -⟩ := m.exists_reduce
  have h := reducesTo_of_reduce hreduce
  refine ⟨r, hreduce, h, fun c => h.mem_pivotColumns_iff, fun m' r' h' hrows => ?_⟩
  have hcolumns := h'.pivotColumns_congr h hrows
  exact ⟨hcolumns, Reduction.freeColumns_congr hcolumns⟩

end AugmentedMatrix

end LinearSystems
