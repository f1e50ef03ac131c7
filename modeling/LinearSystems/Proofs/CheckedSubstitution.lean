import LinearSystems.Proofs.CheckedElimination
import LinearSystems.Proofs.Traversals
import LinearSystems.Solver

/-!
# Back-substitution in place

Back-substitution by places walks up the pivot rows and gives what back-substitution gives, where
there is a name for each column. All values are there from the start, first as free unknowns, so
each later column has a value when it is asked for; and each pivot is the entry of its row in its
column.

* `foldlM_addEntry`: the later entries of a row go with the later values.
* `pivotValue_gridOf`: the value that one pivot row gives.
* `backSubstitute_reducedOf`: the values of all columns.
-/

namespace LinearSystems.Checked

variable {names : List String}

theorem foldlM_addEntry {pivot : Rat} (h : pivot ≠ 0) (front back : List Value)
    {entries : List Rat} (hlength : entries.length = back.length) (start : Value) :
    (entries.zipIdx front.length).foldlM (Reduced.addEntry (front ++ back) pivot) start =
      .ok ((entries.zip back).foldl (fun sum (entry, value) =>
        if entry = 0 then sum else sum + value.scaled (-(entry * pivot⁻¹))) start) := by
  induction entries generalizing front back start with
  | nil => rfl
  | cons entry entries ih =>
      obtain ⟨value, back, rfl⟩ := List.exists_cons_of_length_eq_add_one hlength.symm
      have hnext := fun start => ih (front ++ [value]) back (Nat.succ.inj hlength) start
      simp only [List.length_append, List.length_singleton, ← List.append_cons] at hnext
      rw [List.zipIdx_cons, List.foldlM_cons, List.zip_cons_cons, List.foldl_cons,
        Reduced.addEntry]
      by_cases hzero : entry = 0
      · rw [if_pos hzero]
        simp only [if_pos hzero]
        exact hnext start
      · rw [if_neg hzero, elementAt_append_cons, quotient_of_ne_zero h]
        simp only [if_neg hzero, bind, Except.bind, div_eq_mul_inv]
        exact hnext _

/-- The later entries of a row, each with the place of its column, go with the later values. -/
theorem foldlM_addEntry_drop {pivot : Rat} (h : pivot ≠ 0) (row : Row names.length)
    {values : List Value} (hvalues : values.length = names.length) (column : Fin names.length)
    (start : Value) :
    (row.coefficients.toList.zipIdx.drop (column + 1)).foldlM (Reduced.addEntry values pivot)
        start =
      .ok (((row.entries.zip values).drop (column + 1)).foldl (fun sum (entry, value) =>
        if entry = 0 then sum else sum + value.scaled (-(entry * pivot⁻¹))) start) := by
  have hlength : row.coefficients.toList.length = values.length := by
    rw [Vector.length_toList, hvalues]
  have hentries : row.entries.zip values = row.coefficients.toList.zip values := by
    have happend : (row.coefficients.toList ++ [row.constant]).zip (values ++ []) =
        row.coefficients.toList.zip values ++ [row.constant].zip [] := List.zip_append hlength
    rwa [List.append_nil, List.zip_nil_right, List.append_nil] at happend
  have hfront : (values.take (column + 1)).length = column + 1 := by
    rw [List.length_take, hvalues]
    omega
  have hplaces : row.coefficients.toList.zipIdx.drop (column + 1) =
      (row.coefficients.toList.drop (column + 1)).zipIdx (values.take (column + 1)).length := by
    apply List.ext_getElem?
    intro i
    simp [hfront, Nat.add_comm]
  have hlater : (row.coefficients.toList.drop (column + 1)).length =
      (values.drop (column + 1)).length := by
    rw [List.length_drop, List.length_drop, hlength]
  have hfold := foldlM_addEntry h (values.take (column + 1)) _ hlater start
  rw [List.take_append_drop] at hfold
  rw [hplaces, hfold, hentries, List.zip_eq_zipWith, List.zip_eq_zipWith, List.drop_zipWith]

theorem pivotValue_gridOf (p : Pivot names.length) (front back : List (Row names.length))
    (pivots : List Nat) {values : List Value} (hvalues : values.length = names.length) :
    (⟨gridOf (front ++ p.row :: back), pivots⟩ : Reduced).pivotValue names values front.length
      p.column = p.solve names values := by
  have hroom : ¬ names.length + 1 < names.length := by omega
  simp only [Reduced.pivotValue, Pivot.solve, coefficient_gridOf, constant_gridOf, row_gridOf,
    elementAt_val, cutAt_entries, bind, Except.bind, if_neg hroom]
  by_cases hzero : p.row.coefficient p.column = 0
  · simp [quotient, reciprocal, hzero, Except.map]
  · simp only [quotient_of_ne_zero hzero, reciprocal_of_ne_zero hzero, div_eq_mul_inv,
      foldlM_addEntry_drop hzero p.row hvalues]
    rfl

theorem length_solvePivots {P : List (Pivot names.length)} {values : List Value}
    (h : solvePivots names P = .ok values) : values.length = names.length := by
  induction P generalizing values with
  | nil =>
      cases h
      exact List.length_map _
  | cons p P ih =>
      obtain ⟨before, hbefore, hrest⟩ := bind_eq_ok_iff.mp h
      obtain ⟨value, -, hset⟩ := bind_eq_ok_iff.mp hrest
      cases hset
      rw [List.length_set]
      exact ih hbefore

theorem foldlM_substitute (P : List (Pivot names.length)) (front back : List (Row names.length))
    (pivots : List Nat) :
    ((P.map fun p => p.column.val).zipIdx front.length).reverse.foldlM
        (Reduced.substitute ⟨gridOf (front ++ (P.map Pivot.row ++ back)), pivots⟩ names)
        (names.map Value.free) =
      solvePivots names P := by
  induction P generalizing front with
  | nil => rfl
  | cons p P ih =>
      have hnext := ih (front ++ [p.row])
      rw [List.length_append, List.length_singleton, ← List.append_cons] at hnext
      rw [List.map_cons, List.map_cons, List.zipIdx_cons, List.reverse_cons, List.foldlM_append,
        List.cons_append, hnext, solvePivots]
      cases hvalues : solvePivots names P with
      | error fault => rfl
      | ok values =>
          have hlength := length_solvePivots hvalues
          have hpivot := pivotValue_gridOf p front (P.map Pivot.row ++ back) pivots hlength
          have hcolumn : p.column.val < values.length := by
            rw [hlength]
            exact p.column.isLt
          simp only [List.foldlM_cons, List.foldlM_nil, Reduced.substitute, hpivot, bind,
            Except.bind]
          cases p.solve names values with
          | error fault => rfl
          | ok value => simp [replaceAt, hcolumn, pure, Except.pure]

theorem backSubstitute_reducedOf (r : Reduction names.length) :
    (reducedOf r).backSubstitute names = r.backSubstitute names := by
  have hfold := foldlM_substitute r.pivots [] r.rest (r.pivotColumns.map Fin.val)
  rw [Reduction.backSubstitute, ← hfold]
  simp [Reduced.backSubstitute, reducedOf, Reduction.rows, Reduction.pivotColumns,
    Function.comp_def]

end LinearSystems.Checked
