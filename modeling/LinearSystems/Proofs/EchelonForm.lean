import LinearSystems.Proofs.Elimination

/-!
# Reduced echelon form

What reduction leaves is a reduced echelon form of the rows: each pivot is a one, further to
the right than the pivot of the row above, with zeros to its left and in the rest of its column,
and the rows without a pivot have no coefficients at all. The rows before and after are
combinations of each other, constants included, so nothing is gained or lost on the way, and
whether the equations contradict each other plays no part in it.

A form that is reduced stays as it is if it is reduced once more: at each of its pivots the
pivot row comes next, is scaled by one, and has nothing left to clear.

* `Row.IsCombination`, `RowEquivalent.isCombination`: sums of multiples of rows.
* `Reduction.mem_pivots_iff`: pivots by their places.
* `IsReducedEchelon`, `Reduction.IsReduced.isReducedEchelon`: the form, by places.
* `Reduction.IsReduced.reduce_rows`: a reduced form is kept.
* `AugmentedMatrix.exists_reduce_isReducedEchelon`: all of this for the reduction of a matrix.
-/

namespace LinearSystems

open Finset

variable {n : Nat}

/-! ## Combinations -/

namespace Row

/-- The row is a sum of multiples of the given rows, its constant as well as its coefficients. -/
def IsCombination (rows : List (Row n)) (row : Row n) : Prop :=
  ∃ q : Fin rows.length → Rat,
    (∀ c, row.coefficient c = ∑ i, q i * (rows.get i).coefficient c) ∧
      row.constant = ∑ i, q i * (rows.get i).constant

theorem isHereditary_isCombination (rows : List (Row n)) : IsHereditary (IsCombination rows) where
  scaled := by
    rintro row q ⟨w, hcoefficient, hconstant⟩
    refine ⟨fun i => w i * q, fun c => ?_, ?_⟩
    · rw [coefficient_scaled, hcoefficient, sum_mul]
      exact sum_congr rfl fun i _ => mul_right_comm ..
    · rw [constant_scaled, hconstant, sum_mul]
      exact sum_congr rfl fun i _ => mul_right_comm ..
  minus := by
    rintro row p q ⟨w, hcoefficient, hconstant⟩ ⟨v, hcoefficient', hconstant'⟩
    refine ⟨fun i => w i - q * v i, fun c => ?_, ?_⟩
    · rw [coefficient_minus, hcoefficient, hcoefficient', mul_sum, ← sum_sub_distrib]
      apply sum_congr rfl
      intro i _
      ring
    · rw [constant_minus, hconstant, hconstant', mul_sum, ← sum_sub_distrib]
      apply sum_congr rfl
      intro i _
      ring

theorem isCombination_of_mem {rows : List (Row n)} {row : Row n} (h : row ∈ rows) :
    row.IsCombination rows := by
  obtain ⟨i, rfl⟩ := List.mem_iff_get.mp h
  exact ⟨Pi.single i 1, fun c => by simp [Pi.single_apply], by simp [Pi.single_apply]⟩

end Row

/-- Equivalent rows are combinations of each other. -/
theorem RowEquivalent.isCombination {l l' : List (Row n)} (h : RowEquivalent l l') :
    (∀ row ∈ l, row.IsCombination l') ∧ ∀ row ∈ l', row.IsCombination l :=
  ⟨(h _ (Row.isHereditary_isCombination l')).mpr fun _ => Row.isCombination_of_mem,
    (h _ (Row.isHereditary_isCombination l)).mp fun _ => Row.isCombination_of_mem⟩

/-! ## The form by places -/

/-- A list of rows in reduced echelon form, with the pivots of the first rows in the given
columns. -/
structure IsReducedEchelon (rows : List (Row n)) (pivots : List (Fin n)) : Prop where
  length_le : pivots.length ≤ rows.length
  sorted : pivots.Pairwise (· < ·)
  /-- A pivot is a one, and the only entry in its column. -/
  unit : ∀ {i j : Nat} {c : Fin n} {row : Row n}, pivots[i]? = some c → rows[j]? = some row →
    row.coefficient c = if j = i then 1 else 0
  left : ∀ {i : Nat} {c : Fin n} {row : Row n}, pivots[i]? = some c → rows[i]? = some row →
    ∀ d < c, row.coefficient d = 0
  rest : ∀ {j : Nat} {row : Row n}, pivots.length ≤ j → rows[j]? = some row →
    ∀ d, row.coefficient d = 0

namespace Reduction

variable {r r' : Reduction n} {c : Fin n}

theorem exists_pivot_of_getElem? {i : Nat} (h : r.pivotColumns[i]? = some c) :
    ∃ p, r.pivots[i]? = some p ∧ p.column = c := by
  rw [pivotColumns, List.getElem?_map] at h
  exact Option.map_eq_some_iff.mp h

/-- The rows are those of the pivots, and then the others. -/
theorem row_cases {j : Nat} {row : Row n} (h : r.rows[j]? = some row) :
    (∃ p, r.pivots[j]? = some p ∧ p.row = row) ∨ r.pivots.length ≤ j ∧ row ∈ r.rest := by
  rcases lt_or_ge j r.pivots.length with hj | hj
  · rw [rows, List.getElem?_append_left (by simpa using hj), List.getElem?_map] at h
    exact Or.inl (Option.map_eq_some_iff.mp h)
  · rw [rows, List.getElem?_append_right (by simpa using hj)] at h
    exact Or.inr ⟨hj, List.mem_of_getElem? h⟩

/-- A pivot is a column and a row in the same place. -/
theorem mem_pivots_iff {row : Row n} :
    ⟨c, row⟩ ∈ r.pivots ↔ ∃ i : Nat, r.pivotColumns[i]? = some c ∧ r.rows[i]? = some row := by
  constructor
  · intro hmem
    obtain ⟨i, hi⟩ := List.mem_iff_getElem?.mp hmem
    obtain ⟨hlt, -⟩ := List.getElem?_eq_some_iff.mp hi
    refine ⟨i, ?_, ?_⟩
    · rw [pivotColumns, List.getElem?_map, hi, Option.map_some]
    · rw [rows, List.getElem?_append_left (by simpa using hlt), List.getElem?_map, hi,
        Option.map_some]
  · rintro ⟨i, hc, hrow⟩
    obtain ⟨p, hp, rfl⟩ := exists_pivot_of_getElem? hc
    rcases row_cases hrow with ⟨q, hq, rfl⟩ | ⟨hge, -⟩
    · obtain rfl : p = q := Option.some.inj (hp.symm.trans hq)
      exact List.mem_of_getElem? hp
    · obtain ⟨hlt, -⟩ := List.getElem?_eq_some_iff.mp hp
      omega

theorem IsReduced.isReducedEchelon (h : r.IsReduced) :
    IsReducedEchelon r.rows r.pivotColumns where
  length_le := by simp [rows, pivotColumns]
  sorted := List.pairwise_map.mpr h.sorted
  unit := by
    intro i j c row hc hrow
    obtain ⟨p, hp, rfl⟩ := exists_pivot_of_getElem? hc
    obtain ⟨hi, hpi⟩ := List.getElem?_eq_some_iff.mp hp
    rcases row_cases hrow with ⟨q, hq, rfl⟩ | ⟨hj, hrest⟩
    · rw [h.unit q (List.mem_of_getElem? hq) p (List.mem_of_getElem? hp)]
      -- Pivots in different places are in different columns.
      have hnodup : (r.pivots.map Pivot.column).Nodup :=
        List.pairwise_map.mpr (h.sorted.imp ne_of_lt)
      obtain ⟨hj, hqj⟩ := List.getElem?_eq_some_iff.mp hq
      have hplaces : q.column = p.column ↔ j = i := by
        have hlength : (r.pivots.map Pivot.column).length = r.pivots.length := List.length_map _
        rw [← hqj, ← hpi, ← List.getElem_map Pivot.column (h := hlength ▸ hj),
          ← List.getElem_map Pivot.column (h := hlength ▸ hi)]
        exact hnodup.getElem_inj_iff
      rw [if_congr hplaces rfl rfl]
    · rw [h.rest row hrest p.column p.column.isLt, if_neg (by omega)]
  left := by
    intro i c row hc hrow
    exact h.left ⟨c, row⟩ (mem_pivots_iff.mpr ⟨i, hc, hrow⟩)
  rest := by
    intro j row hj hrow d
    rw [pivotColumns, List.length_map] at hj
    rcases row_cases hrow with ⟨p, hp, -⟩ | ⟨-, hrest⟩
    · obtain ⟨hlt, -⟩ := List.getElem?_eq_some_iff.mp hp
      omega
    · exact h.rest row hrest d d.isLt

/-! ## The number of rows -/

theorem VisitsTo.length_rows (h : r.VisitsTo c r') : r'.rows.length = r.rows.length := by
  cases h with
  | skip => rfl
  | pivot hperm =>
      have hlength := hperm.length_eq
      simp only [rows, withPivot, List.length_append, List.length_map, List.length_cons,
        List.length_nil] at hlength ⊢
      omega

theorem SweepsTo.length_rows {columns : List (Fin n)} (h : SweepsTo columns r r') :
    r'.rows.length = r.rows.length := by
  induction h with
  | nil => rfl
  | cons hvisit _ ih => exact ih.trans hvisit.length_rows

theorem length_rows_of_visits {columns : List (Fin n)} (h : columns.foldlM visit r = .ok r') :
    r'.rows.length = r.rows.length :=
  (sweepsTo_of_visits h).length_rows

/-! ## Reducing once more -/

theorem visit_of_forall_eq_zero (h : ∀ row ∈ r.rest, row.coefficient c = 0) :
    r.visit c = .ok r := by
  obtain ⟨r', hvisit, hstep⟩ := r.exists_visit c
  cases hstep with
  | skip => exact hvisit
  | pivot hperm hne => exact absurd (h _ (hperm.mem_iff.mpr List.mem_cons_self)) hne

/-- A row that starts the rest with a one in a column that is cleared already becomes the next
pivot row, and nothing else changes. -/
theorem visit_of_unit {unit : Row n} {others : List (Row n)} (hrest : r.rest = unit :: others)
    (hunit : unit.coefficient c = 1) (hpivots : ∀ p ∈ r.pivots, p.row.coefficient c = 0)
    (hothers : ∀ row ∈ others, row.coefficient c = 0) :
    r.visit c = .ok ⟨r.pivots ++ [⟨c, unit⟩], others⟩ := by
  have hne : unit.coefficient c ≠ 0 := by
    rw [hunit]
    exact one_ne_zero
  have hscaled : unit.scaled (unit.coefficient c)⁻¹ = unit := by
    apply Row.ext_coefficient <;> simp [hunit]
  have hkept : r.pivots.map (fun p => { p with row := p.row.cleared c unit }) = r.pivots := by
    refine (List.map_congr_left fun p hp => ?_).trans (List.map_id _)
    exact congrArg (Pivot.mk p.column) (Row.cleared_of_coefficient_eq_zero (hpivots p hp))
  have hleft : others.map (fun row => row.cleared c unit) = others := by
    refine (List.map_congr_left fun row hrow => ?_).trans (List.map_id _)
    exact Row.cleared_of_coefficient_eq_zero (hothers row hrow)
  rw [visit, hrest, takePivot, if_pos hne]
  simp only [reciprocal_of_ne_zero hne, bind, Except.bind, hscaled, withPivot, hkept, hleft]
  rfl

/-- The rows of a reduced form, where only the pivots `found` were found so far and the rows of
the others come next. -/
def partly (r : Reduction n) (found left : List (Pivot n)) : Reduction n :=
  ⟨found, left.map Pivot.row ++ r.rest⟩

section Partly

variable {found left : List (Pivot n)}

/-- No pivot in the column `c`: the rows that come next have no entry there. -/
theorem IsReduced.visit_partly_of_forall_lt (h : r.IsReduced) (hsplit : r.pivots = found ++ left)
    (hright : ∀ p ∈ left, c < p.column) :
    (r.partly found left).visit c = .ok (r.partly found left) := by
  apply visit_of_forall_eq_zero
  intro row hrow
  rcases List.mem_append.mp hrow with hrow | hrow
  · obtain ⟨q, hq, rfl⟩ := List.mem_map.mp hrow
    exact h.left q (hsplit ▸ List.mem_append_right _ hq) c (hright q hq)
  · exact h.rest row hrow c c.isLt

/-- The next pivot in its column: it is found, and nothing is left to clear. -/
theorem IsReduced.visit_partly_of_next (h : r.IsReduced) {p : Pivot n}
    (hsplit : r.pivots = found ++ p :: left) :
    (r.partly found (p :: left)).visit p.column = .ok (r.partly (found ++ [p]) left) := by
  have hsorted : (found ++ p :: left).Pairwise fun p q => p.column < q.column :=
    hsplit ▸ h.sorted
  obtain ⟨-, hnext, hbefore⟩ := List.pairwise_append.mp hsorted
  obtain ⟨hafter, -⟩ := List.pairwise_cons.mp hnext
  have hmem : ∀ {q}, q ∈ found ∨ q ∈ p :: left → q ∈ r.pivots := by
    intro q hq
    rw [hsplit]
    exact List.mem_append.mpr hq
  have hp := hmem (Or.inr List.mem_cons_self)
  have hother : ∀ q ∈ r.pivots, q.column ≠ p.column → q.row.coefficient p.column = 0 := by
    intro q hq hne
    rw [h.unit q hq p hp, if_neg hne]
  apply visit_of_unit rfl
  · rw [h.unit p hp p hp, if_pos rfl]
  · intro q hq
    exact hother q (hmem (Or.inl hq)) (ne_of_lt (hbefore q hq p List.mem_cons_self))
  · intro row hrow
    rcases List.mem_append.mp hrow with hrow | hrow
    · obtain ⟨q, hq, rfl⟩ := List.mem_map.mp hrow
      exact hother q (hmem (Or.inr (List.mem_cons_of_mem _ hq))) (ne_of_gt (hafter q hq))
    · exact h.rest row hrow _ p.column.isLt

theorem IsReduced.exists_visit_partly (h : r.IsReduced) (hsplit : r.pivots = found ++ left)
    (hleft : ∀ p ∈ left, c ≤ p.column) :
    ∃ found' left', (r.partly found left).visit c = .ok (r.partly found' left') ∧
      r.pivots = found' ++ left' ∧ ∀ p ∈ left', c < p.column := by
  by_cases hright : ∀ p ∈ left, c < p.column
  · exact ⟨found, left, h.visit_partly_of_forall_lt hsplit hright, hsplit, hright⟩
  · cases left with
    | nil => exact absurd (by simp) hright
    | cons p left =>
        have hsorted : (found ++ p :: left).Pairwise fun p q => p.column < q.column :=
          hsplit ▸ h.sorted
        obtain ⟨hafter, -⟩ := List.pairwise_cons.mp (List.pairwise_append.mp hsorted).2.1
        -- Of the pivots in order only the first one can be in the column.
        obtain rfl : c = p.column := by
          refine (hleft p List.mem_cons_self).eq_or_lt.resolve_right fun hlt => hright ?_
          intro q hq
          rcases List.mem_cons.mp hq with rfl | hq
          · exact hlt
          · exact lt_trans hlt (hafter q hq)
        refine ⟨found ++ [p], left, h.visit_partly_of_next hsplit, ?_, hafter⟩
        rw [hsplit, List.append_assoc]
        rfl

/-- The visits of the columns from `k` on, where the pivots of the columns before were found. -/
theorem IsReduced.visits_partly (h : r.IsReduced) {k : Nat} (hk : k ≤ n)
    (hsplit : r.pivots = found ++ left) (hleft : ∀ p ∈ left, k ≤ p.column.val) :
    ((List.finRange n).drop k).foldlM visit (r.partly found left) = .ok r := by
  induction hgap : n - k generalizing k found left with
  | zero =>
      obtain rfl : k = n := by omega
      obtain rfl : left = [] := by
        apply List.eq_nil_iff_forall_not_mem.mpr
        intro p hp
        exact absurd (hleft p hp) (Nat.not_le.mpr p.column.isLt)
      rw [List.append_nil] at hsplit
      rw [List.drop_of_length_le (by simp), partly, ← hsplit]
      rfl
  | succ gap ih =>
      have hlt : k < n := by omega
      obtain ⟨found', left', hvisit, hsplit', hleft'⟩ :=
        h.exists_visit_partly (c := ⟨k, hlt⟩) hsplit hleft
      rw [List.drop_eq_getElem_cons (by simpa using hlt), List.getElem_finRange,
        List.foldlM_cons]
      simp only [Fin.cast_mk, hvisit]
      exact ih hlt hsplit' hleft' (by omega)

end Partly

/-- A reduced form is not changed by reducing it. -/
theorem IsReduced.reduce_rows (h : r.IsReduced) :
    (⟨r.rows⟩ : AugmentedMatrix n).reduce = .ok r :=
  h.visits_partly (Nat.zero_le n) (List.nil_append r.pivots).symm fun _ _ => Nat.zero_le _

end Reduction

/-- **Reduction gives the reduced echelon form.** Every matrix has a reduction. It has as many
rows as the matrix, these are in reduced echelon form and combinations of the rows of the
matrix, as those are of them, and to reduce them again changes nothing. -/
theorem AugmentedMatrix.exists_reduce_isReducedEchelon (m : AugmentedMatrix n) :
    ∃ r, m.reduce = .ok r ∧ r.rows.length = m.rows.length ∧
      IsReducedEchelon r.rows r.pivotColumns ∧ (∀ row ∈ r.rows, row.IsCombination m.rows) ∧
      (∀ row ∈ m.rows, row.IsCombination r.rows) ∧
      (⟨r.rows⟩ : AugmentedMatrix n).reduce = .ok r := by
  obtain ⟨r, hreduce, hr, hequiv⟩ := m.exists_reduce
  have hlength : r.rows.length = m.rows.length := Reduction.length_rows_of_visits hreduce
  obtain ⟨hforward, hback⟩ := hequiv.isCombination
  exact ⟨r, hreduce, hlength, hr.isReducedEchelon, hforward, hback, hr.reduce_rows⟩

end LinearSystems
