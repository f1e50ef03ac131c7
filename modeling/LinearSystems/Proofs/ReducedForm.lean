import LinearSystems.Proofs.Elimination

/-!
# Solutions of reduced rows

In a reduced form each row with a pivot gives the unknown of its column by the unknowns
without a pivot, and nothing else is left of the equations: numbers for the free unknowns
can be chosen at will, and the rest follows. So what is read off the form, a contradictory
row or a column without a pivot, says how many solutions the rows have.

* `gap_pivot`: what the row of a pivot says.
* `exists_point`: any numbers for the free unknowns extend to a solution.
* `exists_solution_iff`: the rows have a solution just if none is contradictory.
* `only_zero_iff`: the homogeneous rows have no solution but zero just if there is no
  free column.
-/

namespace LinearSystems.Reduction

open Finset

variable {n : Nat} {r : Reduction n}

theorem mem_freeColumns {c : Fin n} : c ∈ r.freeColumns ↔ c ∉ r.pivotColumns := by
  simp [freeColumns]

theorem freeColumns_congr {r' : Reduction n} (h : r.pivotColumns = r'.pivotColumns) :
    r.freeColumns = r'.freeColumns := by
  rw [freeColumns, freeColumns, h]

theorem classify_eq_inconsistent_iff :
    r.classify = .inconsistent ↔ r.isContradictory = true := by
  unfold classify
  split
  · next h => simp [h]
  · next h =>
    split <;> simp [h]

/-! ## The row of a pivot -/

theorem IsReduced.eq_of_column_eq (h : r.IsReduced) {p q : Pivot n} (hp : p ∈ r.pivots)
    (hq : q ∈ r.pivots) (hpq : p.column = q.column) : p = q := by
  have hnodup : (r.pivots.map Pivot.column).Nodup :=
    List.pairwise_map.mpr (h.sorted.imp ne_of_lt)
  exact List.inj_on_of_nodup_map hnodup hp hq hpq

/-- The pivots are in the order of their columns, so that these are determined as a list. -/
theorem IsReduced.pivotColumns_eq_of_mem_iff {r' : Reduction n} (h : r.IsReduced)
    (h' : r'.IsReduced) (hmem : ∀ c, c ∈ r.pivotColumns ↔ c ∈ r'.pivotColumns) :
    r.pivotColumns = r'.pivotColumns := by
  have hsorted : r.pivotColumns.Pairwise (· < ·) := List.pairwise_map.mpr h.sorted
  have hsorted' : r'.pivotColumns.Pairwise (· < ·) := List.pairwise_map.mpr h'.sorted
  exact hsorted.eq_of_mem_iff hsorted' fun {c} => hmem c

/-- The row of a pivot has a one in its own column, and for the rest entries in free
columns only. -/
theorem IsReduced.gap_pivot (h : r.IsReduced) {p : Pivot n} (hp : p ∈ r.pivots)
    (x : Fin n → Rat) (t : Rat) :
    p.row.gap x t =
      x p.column + ∑ c with c ∉ r.pivotColumns, p.row.coefficient c * x c
        - p.row.constant * t := by
  have hmem : p.column ∈ r.pivotColumns := List.mem_map_of_mem hp
  have hpivots : ∑ c with c ∈ r.pivotColumns, p.row.coefficient c * x c = x p.column := by
    rw [sum_eq_single p.column]
    · rw [h.unit p hp p hp, if_pos rfl, one_mul]
    · intro c hc hne
      obtain ⟨q, hq, rfl⟩ := List.mem_map.mp (mem_filter.mp hc).2
      rw [h.unit p hp q hq, if_neg (Ne.symm hne), zero_mul]
    · intro hnot
      exact absurd (mem_filter.mpr ⟨mem_univ _, hmem⟩) hnot
  rw [Row.gap, ← sum_filter_add_sum_filter_not univ (· ∈ r.pivotColumns), hpivots]

theorem IsReduced.gap_rest (h : r.IsReduced) {row : Row n} (hrow : row ∈ r.rest)
    (x : Fin n → Rat) (t : Rat) : row.gap x t = -(row.constant * t) :=
  Row.gap_of_coefficients_zero fun c => h.rest row hrow c c.isLt

/-! ## Points -/

/-- The number of the unknown in a column, by numbers for the free unknowns. -/
def pointOf (r : Reduction n) (f : Fin n → Rat) (t : Rat) (c : Fin n) : Rat :=
  match r.pivots.find? (fun p => p.column == c) with
  | none => f c
  | some p => p.row.constant * t - ∑ d with d ∉ r.pivotColumns, p.row.coefficient d * f d

theorem pointOf_of_not_mem {f : Fin n → Rat} {t : Rat} {c : Fin n} (hc : c ∉ r.pivotColumns) :
    r.pointOf f t c = f c := by
  have hnone : r.pivots.find? (fun p => p.column == c) = none := by
    apply List.find?_eq_none.mpr
    intro p hp
    rw [beq_iff_eq]
    rintro rfl
    exact hc (List.mem_map_of_mem hp)
  rw [pointOf, hnone]

theorem IsReduced.pointOf_column (h : r.IsReduced) {p : Pivot n} (hp : p ∈ r.pivots)
    (f : Fin n → Rat) (t : Rat) :
    r.pointOf f t p.column =
      p.row.constant * t - ∑ d with d ∉ r.pivotColumns, p.row.coefficient d * f d := by
  unfold pointOf
  cases hfind : r.pivots.find? (fun q => q.column == p.column) with
  | none => exact absurd (beq_self_eq_true _) (List.find?_eq_none.mp hfind p hp)
  | some q =>
      have hcolumn : q.column = p.column := by simpa using List.find?_some hfind
      rw [h.eq_of_column_eq (List.mem_of_find?_eq_some hfind) hp hcolumn]

theorem IsReduced.exists_point (h : r.IsReduced) (f : Fin n → Rat) (t : Rat) :
    ∃ x : Fin n → Rat, (∀ c ∉ r.pivotColumns, x c = f c) ∧
      ∀ p ∈ r.pivots, p.row.gap x t = 0 := by
  refine ⟨r.pointOf f t, fun c hc => pointOf_of_not_mem hc, fun p hp => ?_⟩
  have hfree : ∑ c with c ∉ r.pivotColumns, p.row.coefficient c * r.pointOf f t c =
      ∑ c with c ∉ r.pivotColumns, p.row.coefficient c * f c := by
    apply sum_congr rfl
    intro c hc
    rw [pointOf_of_not_mem (mem_filter.mp hc).2]
  rw [h.gap_pivot hp, h.pointOf_column hp, hfree]
  ring

/-! ## Solutions -/

theorem IsReduced.isContradictory_eq_false_iff (h : r.IsReduced) :
    r.isContradictory = false ↔ ∀ row ∈ r.rest, row.constant = 0 := by
  simp only [isContradictory, rows, List.any_append, Bool.or_eq_false_iff, List.any_eq_false,
    Bool.and_eq_true, bne_iff_ne, ne_eq, not_and, not_not, Row.isZero_iff]
  constructor
  · rintro ⟨-, hrest⟩ row hrow
    exact hrest row hrow fun c => h.rest row hrow c c.isLt
  · intro hrest
    refine ⟨fun row hrow hzero => ?_, fun row hrow _ => hrest row hrow⟩
    -- A row with a pivot has a one.
    obtain ⟨p, hp, rfl⟩ := List.mem_map.mp hrow
    have hone := h.unit p hp p hp
    rw [hzero, if_pos rfl] at hone
    exact absurd hone zero_ne_one

/-- Where the rows without a pivot say nothing, the rows with one say all. -/
theorem IsReduced.gap_rows_iff (h : r.IsReduced) {x : Fin n → Rat} {t : Rat}
    (hrest : ∀ row ∈ r.rest, row.constant * t = 0) :
    (∀ row ∈ r.rows, row.gap x t = 0) ↔ ∀ p ∈ r.pivots, p.row.gap x t = 0 := by
  constructor
  · intro hrows p hp
    exact hrows _ (List.mem_append_left _ (List.mem_map_of_mem hp))
  · intro hpivots row hrow
    rcases List.mem_append.mp hrow with hrow | hrow
    · obtain ⟨p, hp, rfl⟩ := List.mem_map.mp hrow
      exact hpivots p hp
    · rw [h.gap_rest hrow, hrest row hrow, neg_zero]

theorem IsReduced.solution_iff (h : r.IsReduced) (hcons : r.isContradictory = false)
    (x : Fin n → Rat) :
    (∀ row ∈ r.rows, row.gap x 1 = 0) ↔ ∀ p ∈ r.pivots, p.row.gap x 1 = 0 :=
  h.gap_rows_iff fun row hrow => by
    rw [h.isContradictory_eq_false_iff.mp hcons row hrow, zero_mul]

theorem IsReduced.homogeneous_iff (h : r.IsReduced) (x : Fin n → Rat) :
    (∀ row ∈ r.rows, row.gap x 0 = 0) ↔ ∀ p ∈ r.pivots, p.row.gap x 0 = 0 :=
  h.gap_rows_iff fun _ _ => mul_zero _

theorem IsReduced.exists_solution_iff (h : r.IsReduced) :
    (∃ x : Fin n → Rat, ∀ row ∈ r.rows, row.gap x 1 = 0) ↔ r.isContradictory = false := by
  constructor
  · rintro ⟨x, hx⟩
    apply h.isContradictory_eq_false_iff.mpr
    intro row hrow
    have hgap := hx row (List.mem_append_right _ hrow)
    rw [h.gap_rest hrow, mul_one] at hgap
    exact neg_eq_zero.mp hgap
  · intro hcons
    obtain ⟨x, -, hx⟩ := h.exists_point 0 1
    exact ⟨x, (h.solution_iff hcons x).mpr hx⟩

theorem IsReduced.only_zero_iff (h : r.IsReduced) :
    (∀ x : Fin n → Rat, (∀ row ∈ r.rows, row.gap x 0 = 0) → x = 0) ↔ r.freeColumns = [] := by
  constructor
  · intro hzero
    apply List.eq_nil_iff_forall_not_mem.mpr
    intro c hc
    have hc := mem_freeColumns.mp hc
    obtain ⟨x, hfree, hx⟩ := h.exists_point (Pi.single c 1) 0
    have hone : x c = 1 := by rw [hfree c hc, Pi.single_eq_same]
    rw [hzero x ((h.homogeneous_iff x).mpr hx)] at hone
    exact zero_ne_one hone
  · intro hfree x hx
    have hall : ∀ c, c ∈ r.pivotColumns := by
      intro c
      by_contra hc
      exact List.not_mem_nil (hfree ▸ mem_freeColumns.mpr hc)
    funext c
    obtain ⟨p, hp, rfl⟩ := List.mem_map.mp (hall c)
    have hgap := (h.homogeneous_iff x).mp hx p hp
    rw [h.gap_pivot hp, filter_false_of_mem (fun d _ => not_not.mpr (hall d)), sum_empty,
      add_zero, mul_zero, sub_zero] at hgap
    exact hgap

end LinearSystems.Reduction
