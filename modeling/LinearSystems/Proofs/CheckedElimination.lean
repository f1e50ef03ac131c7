import LinearSystems.Proofs.CheckedGrids
import LinearSystems.Proofs.Elimination

/-!
# Elimination in place

Elimination that overwrites the rows of a grid goes through the reductions of the rows. Where a
column is visited, the pivot rows are in front of the others, and their number is the place of the
next pivot row. So the search, the exchange and the clearing never ask for a row that is not there,
and the pivot that is inverted is the entry that was found not to be zero.

* `eliminate_gridOf`: a column is cleared by the row in some place.
* `visit_reducedOf`, `reduce_gridOf`: one column, and all columns.
* `classify_reducedOf`: the answer that the reduced rows give.
-/

namespace LinearSystems

variable {n : Nat}

namespace Checked

/-! ## One column -/

section Column

variable {front back : List (Row n)} {chosen : Row n}

theorem findPivot_gridOf (front back : List (Row n)) (c : Fin n) :
    (gridOf (front ++ back)).findPivot front.length c =
      .ok ((back.findIdx? (hasEntry c)).map (front.length + ·)) := by
  have hcount : (gridOf (front ++ back)).rows.length - front.length = back.length := by
    simp [gridOf]
  rw [Grid.findPivot, hcount]
  refine findM?_range' front back ?_
  intro front' row back' hsplit
  rw [← hsplit, coefficient_gridOf]
  rfl

/-- A map over all rows but one. -/
theorem mapIdx_ite_append (f : Row n → Row n) :
    (front ++ chosen :: back).mapIdx (fun i row => if i = front.length then row else f row) =
      front.map f ++ chosen :: back.map f := by
  apply List.ext_getElem?
  intro i
  rw [List.getElem?_mapIdx]
  rcases lt_trichotomy i front.length with hi | rfl | hi
  · rw [List.getElem?_append_left hi, List.getElem?_append_left (by simpa using hi),
      List.getElem?_map]
    simp only [if_neg (ne_of_lt hi)]
  · simp
  · obtain ⟨k, rfl⟩ := Nat.exists_eq_add_of_lt hi
    simp [List.getElem?_append_right, Nat.add_assoc]

theorem clear_gridOf (c : Fin n) (unit : Row n) :
    (gridOf (front ++ chosen :: back)).clear front.length c unit.entries =
      .ok (gridOf (front.map (·.cleared c unit) ++ chosen :: back.map (·.cleared c unit))) := by
  have hcount : (gridOf (front ++ chosen :: back)).rows.length =
      (front ++ chosen :: back).length := by simp [gridOf]
  rw [Grid.clear, hcount, ← mapIdx_ite_append]
  refine foldlM_range_replace gridOf
    (fun i row => if i = front.length then row else row.cleared c unit) _ _ ?_
  intro front' row back' _
  by_cases hplace : front'.length = front.length
  · simp only [if_pos hplace]
    rfl
  · simp only [if_neg hplace, coefficient_gridOf, row_gridOf, bind, Except.bind]
    by_cases hzero : row.coefficient c = 0
    · rw [if_pos hzero, Row.cleared_of_coefficient_eq_zero hzero]
      rfl
    · rw [if_neg hzero, ← Row.entries_minus]
      exact setRow_gridOf _

theorem eliminate_gridOf {c : Fin n} (h : chosen.coefficient c ≠ 0) :
    (gridOf (front ++ chosen :: back)).eliminate front.length c =
      .ok (gridOf (front.map (·.cleared c (chosen.scaled (chosen.coefficient c)⁻¹)) ++
        chosen.scaled (chosen.coefficient c)⁻¹ ::
          back.map (·.cleared c (chosen.scaled (chosen.coefficient c)⁻¹)))) := by
  have hplace : ∀ f : Row n → Row n, front.length = (front.map f).length := by simp
  simp only [Grid.eliminate, coefficient_gridOf, reciprocal_of_ne_zero h, row_gridOf,
    ← Row.entries_scaled, clear_gridOf, bind, Except.bind]
  rw [hplace, setRow_gridOf]

end Column

/-! ## All columns -/

/-- The grid of a reduction: its rows, those with a pivot first. -/
def reducedOf (r : Reduction n) : Reduced := ⟨gridOf r.rows, r.pivotColumns.map Fin.val⟩

theorem reducedOf_withPivot (r : Reduction n) (c : Fin n) (unit : Row n) (others : List (Row n)) :
    reducedOf (r.withPivot c unit others) =
      ⟨gridOf ((r.pivots.map Pivot.row).map (·.cleared c unit) ++
        unit :: others.map (·.cleared c unit)), (reducedOf r).pivots ++ [c.val]⟩ := by
  simp [reducedOf, Reduction.withPivot, Reduction.rows, Reduction.pivotColumns, Function.comp_def]

/-- A visit of a column does the same in place. -/
theorem visit_reducedOf (r : Reduction n) (c : Fin n) :
    (reducedOf r).visit c = (r.visit c).map reducedOf := by
  have hplace : (reducedOf r).pivots.length = (r.pivots.map Pivot.row).length := by
    simp [reducedOf, Reduction.pivotColumns]
  have hgrid : (reducedOf r).grid = gridOf (r.pivots.map Pivot.row ++ r.rest) := rfl
  rw [Reduced.visit, hplace, hgrid, Reduction.visit]
  by_cases hdone : r.rest = []
  · -- All rows have a pivot.
    rw [if_pos (by simp [gridOf, hdone]), hdone]
    rfl
  · rw [if_neg (by simp [gridOf, hdone]), findPivot_gridOf]
    rcases takePivot_cases c r.rest with ⟨htake, hfind⟩ | ⟨chosen, back, hrest, hne, htake, hfind⟩ |
      ⟨first, middle, chosen, back, hrest, hne, htake, hfind⟩
    · rw [htake, hfind]
      rfl
    · rw [htake, hfind, hrest]
      simp only [Option.map_some, Nat.add_zero, if_true, bind, Except.bind, eliminate_gridOf hne,
        reciprocal_of_ne_zero hne, pure, Except.pure, Except.map, reducedOf_withPivot]
    · have hother : (r.pivots.map Pivot.row).length + (middle.length + 1) ≠
          (r.pivots.map Pivot.row).length := by omega
      have hswap := swapRows_gridOf (r.pivots.map Pivot.row) first middle chosen back
      rw [htake, hfind, hrest]
      simp only [Option.map_some, if_neg hother, bind, Except.bind]
      rw [show (r.pivots.map Pivot.row).length + (middle.length + 1) =
        (r.pivots.map Pivot.row).length + 1 + middle.length by omega, hswap]
      simp only [eliminate_gridOf hne, reciprocal_of_ne_zero hne, pure, Except.pure, Except.map,
        reducedOf_withPivot]

theorem reduce_gridOf (m : AugmentedMatrix n) :
    (gridOf m.rows).reduce = m.reduce.map reducedOf := by
  have hunknowns : (gridOf m.rows).unknowns = n := rfl
  have hstart : (⟨gridOf m.rows, []⟩ : Reduced) = reducedOf ⟨[], m.rows⟩ := rfl
  rw [Grid.reduce, hunknowns, ← List.map_coe_finRange_eq_range, List.foldlM_map, hstart,
    AugmentedMatrix.reduce]
  exact foldlM_map_state visit_reducedOf _ _

/-! ## Reduced rows -/

theorem isContradictory_reducedOf (r : Reduction n) :
    (reducedOf r).isContradictory = .ok r.isContradictory := by
  have hcount : (reducedOf r).grid.rows.length = r.rows.length := by simp [reducedOf, gridOf]
  rw [Reduced.isContradictory, hcount]
  refine anyM_range ?_
  intro front row back hsplit
  have hgrid : (reducedOf r).grid = gridOf (front ++ row :: back) := by rw [hsplit]; rfl
  simp only [hgrid, isZeroRow_gridOf, constant_gridOf, bind, Except.bind]
  cases row.isZero <;> rfl

theorem freeColumns_reducedOf (r : Reduction n) :
    (reducedOf r).freeColumns = r.freeColumns.map Fin.val := by
  have hunknowns : (reducedOf r).grid.unknowns = n := rfl
  rw [Reduced.freeColumns, hunknowns, ← List.map_coe_finRange_eq_range, List.filter_map,
    Reduction.freeColumns]
  refine congrArg _ (List.filter_congr fun c _ => ?_)
  have hmem : c.val ∈ r.pivotColumns.map Fin.val ↔ c ∈ r.pivotColumns :=
    List.mem_map_of_injective Fin.val_injective
  simp only [reducedOf, Function.comp_apply, List.contains_eq_mem, hmem]

/-- The answer with the places of the columns that are free. -/
def shapeOf : Classification n → Shape
  | .unique => .unique
  | .underdetermined free => .underdetermined (free.map Fin.val)
  | .inconsistent => .inconsistent

theorem shapeOf_eq_inconsistent_iff {answer : Classification n} :
    shapeOf answer = .inconsistent ↔ answer = .inconsistent := by
  cases answer <;> simp [shapeOf]

theorem classify_reducedOf (r : Reduction n) :
    (reducedOf r).classify = .ok (shapeOf r.classify) := by
  rw [Reduced.classify, isContradictory_reducedOf, freeColumns_reducedOf, Reduction.classify]
  cases r.isContradictory with
  | true => rfl
  | false =>
      cases hfree : r.freeColumns <;> rfl

end Checked

end LinearSystems
