import LinearSystems.Proofs.CanonicalForm
import LinearSystems.Proofs.EchelonForm

/-!
# The pivots of the normal equations

A matrix and its normal equations differ in the number of their rows and in all entries, but
not in their homogeneous solutions. So both are reduced to pivots in the same columns, and the
rows with a pivot have the same coefficients. Where the rows of the matrix have a solution, the
normal equations have the same solutions as well: then also the constants of these rows agree,
and with them the values of all unknowns.

* `Reduction.IsReduced.exists_rows_of_lt`: reduced forms with the same homogeneous solutions,
  row by row.
* `AugmentedMatrix.exists_reduce_rows_and_normalEquations`: the two reductions of a matrix.
-/

namespace LinearSystems

variable {n : Nat}

namespace Reduction

variable {r r' : Reduction n}

theorem rank_eq_length (r : Reduction n) : r.rank = r.pivotColumns.length :=
  (List.length_map _).symm

theorem getElem?_rows_of_lt {i : Nat} (hi : i < r.pivots.length) :
    r.rows[i]? = some r.pivots[i].row := by
  rw [rows, List.getElem?_append_left (by simpa using hi), List.getElem?_map,
    List.getElem?_eq_getElem hi, Option.map_some]

/-- In the place of each pivot two reduced forms have rows with the same coefficients, if they
have the same homogeneous solutions. -/
theorem IsReduced.exists_rows_of_lt (h : r.IsReduced) (h' : r'.IsReduced)
    (hzero : ∀ x, r.SolvesPivots x 0 ↔ r'.SolvesPivots x 0) {i : Nat} (hi : i < r.rank) :
    ∃ row row', r.rows[i]? = some row ∧ r'.rows[i]? = some row' ∧
      ∀ c, row'.coefficient c = row.coefficient c := by
  have hcolumns : r.pivotColumns = r'.pivotColumns := IsReduced.pivotColumns_eq h h' hzero
  have hi' : i < r'.rank := by
    rwa [rank_eq_length, ← hcolumns, ← rank_eq_length]
  rw [rank] at hi hi'
  have hcolumn : r.pivots[i].column = r'.pivots[i].column := by
    have hplace := congrArg (fun columns => columns[i]?) hcolumns
    simp only [pivotColumns, List.getElem?_map, List.getElem?_eq_getElem hi,
      List.getElem?_eq_getElem hi', Option.map_some, Option.some.injEq] at hplace
    exact hplace
  refine ⟨_, _, getElem?_rows_of_lt hi, getElem?_rows_of_lt hi', fun c => ?_⟩
  exact (IsReduced.coefficient_eq h h' hzero (List.getElem_mem hi) (List.getElem_mem hi')
    hcolumn c).symm

end Reduction

namespace AugmentedMatrix

/-- **Least squares agree with the rows themselves.** Every matrix and its normal equations have
reductions with the same columns of pivots, and so with the same rank and the same free columns.
The rows with a pivot have the same coefficients. If the rows of the matrix do not contradict
each other, these rows are the same, and back-substitution gives the same values under any names
for the columns. -/
theorem exists_reduce_rows_and_normalEquations (m : AugmentedMatrix n) :
    ∃ d r, m.reduce = .ok d ∧ m.normalEquations.reduce = .ok r ∧
      r.pivotColumns = d.pivotColumns ∧ r.rank = d.rank ∧ r.freeColumns = d.freeColumns ∧
      (∀ i < d.rank, ∃ row row', d.rows[i]? = some row ∧ r.rows[i]? = some row' ∧
        ∀ c, row'.coefficient c = row.coefficient c) ∧
      (d.classify ≠ .inconsistent →
        (∀ i < d.rank, r.rows[i]? = d.rows[i]?) ∧
        ∀ names : List String, names.length = n →
          ∃ values, d.backSubstitute names = .ok values ∧ r.backSubstitute names = .ok values) := by
  obtain ⟨d, hreduce, hd, hequiv⟩ := m.exists_reduce
  obtain ⟨r, hnormal, hr, hequiv', hcons'⟩ := m.exists_reduce_normalEquations
  have hzero : ∀ x, d.SolvesPivots x 0 ↔ r.SolvesPivots x 0 := by
    intro x
    rw [hd.solvesPivots_zero_iff hequiv, hr.solvesPivots_zero_iff hequiv',
      homogeneous_normalEquations_iff]
  have hcolumns : r.pivotColumns = d.pivotColumns :=
    (Reduction.IsReduced.pivotColumns_eq hd hr hzero).symm
  have hrank : r.rank = d.rank := by
    rw [Reduction.rank_eq_length, hcolumns, Reduction.rank_eq_length]
  refine ⟨d, r, hreduce, hnormal, hcolumns, hrank, Reduction.freeColumns_congr hcolumns,
    fun i hi => hd.exists_rows_of_lt hr hzero hi, fun hclass => ?_⟩
  have hcons : d.isContradictory = false := by
    rw [← Bool.not_eq_true, ← Reduction.classify_eq_inconsistent_iff]
    exact hclass
  have hsolution : ∀ x, d.SolvesPivots x 1 ↔ r.SolvesPivots x 1 := by
    intro x
    have hexists := hd.exists_solution_iff.mpr hcons
    simp only [hequiv.gap_iff] at hexists
    rw [hd.solvesPivots_one_iff hcons hequiv, hr.solvesPivots_one_iff hcons' hequiv',
      solution_normalEquations_iff hexists]
  have hpivots : d.pivots = r.pivots := hd.pivots_eq hr hsolution hzero
  refine ⟨fun i hi => ?_, fun names hnames => ?_⟩
  · have hi' : i < r.pivots.length := lt_of_lt_of_eq hi hrank.symm
    rw [Reduction.getElem?_rows_of_lt hi, Reduction.getElem?_rows_of_lt hi']
    simp only [hpivots]
  · subst hnames
    obtain ⟨values, hrun, -⟩ := exists_solvePivots hd.isEchelon
    refine ⟨_, hrun, ?_⟩
    rw [Reduction.backSubstitute, ← hpivots]
    exact hrun

end AugmentedMatrix

end LinearSystems
