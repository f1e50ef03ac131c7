import LinearSystems.Proofs.RowCombinations
import LinearSystems.Reduction

/-!
# Elimination

What a visit of one column may do is said once, by `Reduction.VisitsTo`: either no row
without a pivot has an entry in the column and nothing changes, or one of these rows is
scaled to a leading one and the column is cleared everywhere else. It leaves open which of
the rows that is. The two invariants of the sweep over all columns follow from it, so that
they hold whichever rows are chosen.

* `takePivot_cases`: the row that is taken, by its place.
* `Reduction.exists_visit`: a visit has a result, and makes one of these choices.
* `Reduction.ReducedBelow`: how far the rows are reduced, once all columns below `k`
  were visited.
* `RowEquivalent`: the rows keep the same combinations.
* `AugmentedMatrix.ReducesTo`: elimination of all columns, with any choices.
* `AugmentedMatrix.exists_reduce`: reduction gives a result, and both invariants hold of it.
-/

namespace LinearSystems

variable {n : Nat}

/-! ## Choosing a pivot row -/

section TakePivot

variable (c : Fin n)

/-- Whether a row has an entry in the column. -/
def hasEntry (row : Row n) : Bool := row.coefficient c != 0

theorem swapFor_cases (first : Row n) (rows : List (Row n)) :
    (swapFor c first rows = none ∧ rows.findIdx? (hasEntry c) = none) ∨
    ∃ middle chosen back, rows = middle ++ chosen :: back ∧ chosen.coefficient c ≠ 0 ∧
      swapFor c first rows = some (chosen, middle ++ first :: back) ∧
      rows.findIdx? (hasEntry c) = some middle.length := by
  induction rows with
  | nil => exact Or.inl ⟨rfl, rfl⟩
  | cons row rows ih =>
      rw [swapFor, List.findIdx?_cons]
      by_cases hrow : row.coefficient c = 0
      · have hno : hasEntry c row = false := by simp [hasEntry, hrow]
        rw [if_neg (not_not_intro hrow), hno]
        rcases ih with ⟨hswap, hfind⟩ | ⟨middle, chosen, back, rfl, hne, hswap, hfind⟩
        · rw [hswap, hfind]
          exact Or.inl ⟨rfl, rfl⟩
        · rw [hswap, hfind]
          exact Or.inr ⟨row :: middle, chosen, back, rfl, hne, rfl, rfl⟩
      · have hyes : hasEntry c row = true := by simp [hasEntry, hrow]
        rw [if_pos hrow, hyes]
        exact Or.inr ⟨[], row, rows, rfl, hrow, rfl, rfl⟩

/-- No row has an entry in the column, or the first one has, or a later one that is exchanged with
the first one. -/
theorem takePivot_cases (rows : List (Row n)) :
    (takePivot c rows = none ∧ rows.findIdx? (hasEntry c) = none) ∨
    (∃ chosen back, rows = chosen :: back ∧ chosen.coefficient c ≠ 0 ∧
      takePivot c rows = some (chosen, back) ∧ rows.findIdx? (hasEntry c) = some 0) ∨
    ∃ first middle chosen back, rows = first :: (middle ++ chosen :: back) ∧
      chosen.coefficient c ≠ 0 ∧ takePivot c rows = some (chosen, middle ++ first :: back) ∧
      rows.findIdx? (hasEntry c) = some (middle.length + 1) := by
  cases rows with
  | nil => exact Or.inl ⟨rfl, rfl⟩
  | cons first rows =>
      rw [takePivot, List.findIdx?_cons]
      by_cases hfirst : first.coefficient c = 0
      · have hno : hasEntry c first = false := by simp [hasEntry, hfirst]
        rw [if_neg (not_not_intro hfirst), hno]
        rcases swapFor_cases c first rows with
          ⟨hswap, hfind⟩ | ⟨middle, chosen, back, rfl, hne, hswap, hfind⟩
        · rw [hswap, hfind]
          exact Or.inl ⟨rfl, rfl⟩
        · rw [hswap, hfind]
          exact Or.inr (Or.inr ⟨first, middle, chosen, back, rfl, hne, rfl, rfl⟩)
      · have hyes : hasEntry c first = true := by simp [hasEntry, hfirst]
        rw [if_pos hfirst, hyes]
        exact Or.inr (Or.inl ⟨first, rows, rfl, hfirst, rfl, rfl⟩)

end TakePivot

namespace Reduction

variable {r r' : Reduction n} {c : Fin n}

/-! ## A visit of one column -/

/-- What a visit of column `c` may leave. Any row without a pivot that has an entry in the column
may become the pivot row, and the others may be left in any order. -/
inductive VisitsTo (r : Reduction n) (c : Fin n) : Reduction n → Prop where
  | skip (hzero : ∀ row ∈ r.rest, row.coefficient c = 0) : r.VisitsTo c r
  | pivot {chosen : Row n} {others : List (Row n)} (hperm : r.rest.Perm (chosen :: others))
      (hne : chosen.coefficient c ≠ 0) :
      r.VisitsTo c (r.withPivot c (chosen.scaled (chosen.coefficient c)⁻¹) others)

/-- All that a visit can do. -/
theorem exists_visit (r : Reduction n) (c : Fin n) :
    ∃ r', r.visit c = .ok r' ∧ r.VisitsTo c r' := by
  unfold visit
  rcases takePivot_cases c r.rest with ⟨htake, hfind⟩ | ⟨chosen, back, hrest, hne, htake, -⟩ |
    ⟨first, middle, chosen, back, hrest, hne, htake, -⟩ <;> rw [htake]
  · refine ⟨r, rfl, .skip fun row hrow => ?_⟩
    simpa [hasEntry] using List.findIdx?_eq_none_iff.mp hfind row hrow
  · have hperm : r.rest.Perm (chosen :: back) := hrest ▸ List.Perm.refl _
    refine ⟨_, ?_, .pivot hperm hne⟩
    simp only [reciprocal_of_ne_zero hne]
    rfl
  · have hperm : r.rest.Perm (chosen :: (middle ++ first :: back)) := calc
      r.rest
      _ |>.Perm (first :: chosen :: (middle ++ back)) := hrest ▸ List.perm_middle.cons first
      _ |>.Perm (chosen :: first :: (middle ++ back)) := List.Perm.swap _ _ _
      _ |>.Perm (chosen :: (middle ++ first :: back)) := List.perm_middle.symm.cons chosen
    refine ⟨_, ?_, .pivot hperm hne⟩
    simp only [reciprocal_of_ne_zero hne]
    rfl

theorem mem_rows_withPivot {unit row : Row n} {others : List (Row n)} :
    row ∈ (r.withPivot c unit others).rows ↔
      row = unit ∨ ∃ old ∈ r.pivots.map Pivot.row ++ others, row = old.cleared c unit := by
  simp only [rows, withPivot, List.map_append, List.map_map, List.map_cons, List.map_nil,
    List.mem_append, List.mem_map, List.mem_singleton, Function.comp_apply]
  constructor
  · rintro ((⟨p, hp, rfl⟩ | rfl) | ⟨old, hold, rfl⟩)
    · exact Or.inr ⟨p.row, Or.inl ⟨p, hp, rfl⟩, rfl⟩
    · exact Or.inl rfl
    · exact Or.inr ⟨old, Or.inr hold, rfl⟩
  · rintro (rfl | ⟨old, ⟨p, hp, rfl⟩ | hold, rfl⟩)
    · exact Or.inl (Or.inr rfl)
    · exact Or.inl (Or.inl ⟨p, hp, rfl⟩)
    · exact Or.inr ⟨old, hold, rfl⟩

theorem mem_pivots_withPivot {unit : Row n} {others : List (Row n)} {p : Pivot n}
    (h : p ∈ (r.withPivot c unit others).pivots) :
    p = ⟨c, unit⟩ ∨ ∃ q ∈ r.pivots, p = ⟨q.column, q.row.cleared c unit⟩ := by
  rcases List.mem_append.mp h with h | h
  · obtain ⟨q, hq, rfl⟩ := List.mem_map.mp h
    exact Or.inr ⟨q, hq, rfl⟩
  · exact Or.inl (List.mem_singleton.mp h)

/-- Clearing a column with a multiple of a row can be undone. -/
theorem rowEquivalent_withPivot {chosen : Row n} {others : List (Row n)}
    (hperm : r.rest.Perm (chosen :: others)) (hne : chosen.coefficient c ≠ 0) :
    RowEquivalent (r.withPivot c (chosen.scaled (chosen.coefficient c)⁻¹) others).rows r.rows := by
  have hrows : r.rows.Perm (chosen :: (r.pivots.map Pivot.row ++ others)) :=
    (hperm.append_left _).trans List.perm_middle
  have hback := RowEquivalent.of_perm hrows
  intro P hP
  rw [hback P hP]
  constructor
  · intro h row hrow
    have hunit := h _ (mem_rows_withPivot.mpr (Or.inl rfl))
    rcases List.mem_cons.mp hrow with rfl | hrow
    · rw [← Row.scaled_inv_scaled (r := row) hne]
      exact hP.scaled _ hunit
    · rw [← Row.minus_cleared row (chosen.scaled (chosen.coefficient c)⁻¹) c]
      exact hP.minus _ (h _ (mem_rows_withPivot.mpr (Or.inr ⟨row, hrow, rfl⟩))) hunit
  · intro h row hrow
    have hunit := hP.scaled (chosen.coefficient c)⁻¹ (h chosen List.mem_cons_self)
    rcases mem_rows_withPivot.mp hrow with rfl | ⟨old, hold, rfl⟩
    · exact hunit
    · exact hP.minus _ (h old (List.mem_cons_of_mem _ hold)) hunit

theorem VisitsTo.rowEquivalent (h : r.VisitsTo c r') : RowEquivalent r'.rows r.rows := by
  cases h with
  | skip => exact RowEquivalent.of_perm (List.Perm.refl _)
  | pivot hperm hne => exact rowEquivalent_withPivot hperm hne

/-! ## How far the rows are reduced -/

/-- All columns below `k` were visited: the pivots stand in some of these columns, in
order, each row with a pivot starts with its one and is the only one with an entry there,
and the other rows have no entry in a visited column. -/
structure ReducedBelow (r : Reduction n) (k : Nat) : Prop where
  sorted : r.pivots.Pairwise (fun p q => p.column < q.column)
  column_lt : ∀ p ∈ r.pivots, p.column.val < k
  left : ∀ p ∈ r.pivots, ∀ d < p.column, p.row.coefficient d = 0
  unit : ∀ p ∈ r.pivots, ∀ q ∈ r.pivots,
    p.row.coefficient q.column = if p.column = q.column then 1 else 0
  rest : ∀ row ∈ r.rest, ∀ d : Fin n, d.val < k → row.coefficient d = 0

theorem reducedBelow_zero (rows : List (Row n)) : ReducedBelow ⟨[], rows⟩ 0 where
  sorted := List.Pairwise.nil
  column_lt := by simp
  left := by simp
  unit := by simp
  rest := by simp

theorem ReducedBelow.withPivot (h : r.ReducedBelow c.val) {unit : Row n} {others : List (Row n)}
    (hone : unit.coefficient c = 1) (hleft : ∀ d < c, unit.coefficient d = 0)
    (hothers : ∀ row ∈ others, ∀ d < c, row.coefficient d = 0) :
    (r.withPivot c unit others).ReducedBelow (c.val + 1) := by
  -- The unit row starts in column `c`, so that it changes nothing to the left of it.
  have hclear : ∀ (row : Row n) (d : Fin n), d < c →
      (row.cleared c unit).coefficient d = row.coefficient d := by
    intro row d hd
    exact Row.coefficient_cleared_of_zero (hleft d hd)
  constructor
  · refine List.pairwise_append.mpr ⟨h.sorted.map _ (fun _ _ hlt => hlt),
      List.pairwise_singleton _ _, ?_⟩
    intro p hp q hq
    obtain ⟨old, hold, rfl⟩ := List.mem_map.mp hp
    rw [List.mem_singleton.mp hq]
    exact h.column_lt old hold
  · intro p hp
    rcases mem_pivots_withPivot hp with rfl | ⟨q, hq, rfl⟩
    · exact Nat.lt_succ_self _
    · have hlt : q.column.val < c.val := h.column_lt q hq
      exact Nat.lt_succ_of_lt hlt
  · intro p hp d hd
    rcases mem_pivots_withPivot hp with rfl | ⟨q, hq, rfl⟩
    · exact hleft d hd
    · rw [hclear q.row d (lt_trans hd (h.column_lt q hq))]
      exact h.left q hq d hd
  · intro p hp q hq
    rcases mem_pivots_withPivot hp with rfl | ⟨p₀, hp₀, rfl⟩ <;>
      rcases mem_pivots_withPivot hq with rfl | ⟨q₀, hq₀, rfl⟩
    · simp [hone]
    · have hlt : q₀.column < c := h.column_lt q₀ hq₀
      rw [hleft _ hlt, if_neg (ne_of_gt hlt)]
    · have hlt : p₀.column < c := h.column_lt p₀ hp₀
      rw [Row.coefficient_cleared_self hone, if_neg (ne_of_lt hlt)]
    · rw [hclear _ _ (h.column_lt q₀ hq₀)]
      exact h.unit p₀ hp₀ q₀ hq₀
  · intro row hrow d hd
    obtain ⟨old, hold, rfl⟩ := List.mem_map.mp hrow
    rcases Nat.lt_succ_iff_lt_or_eq.mp hd with hd | hd
    · rw [hclear old d hd]
      exact hothers old hold d hd
    · rw [show d = c from Fin.ext hd]
      exact Row.coefficient_cleared_self hone

theorem ReducedBelow.skip (h : r.ReducedBelow c.val)
    (hzero : ∀ row ∈ r.rest, row.coefficient c = 0) : r.ReducedBelow (c.val + 1) where
  sorted := h.sorted
  column_lt p hp := by
    have hlt := h.column_lt p hp
    omega
  left := h.left
  unit := h.unit
  rest row hrow d hd := by
    rcases Nat.lt_succ_iff_lt_or_eq.mp hd with hd | hd
    · exact h.rest row hrow d hd
    · rw [show d = c from Fin.ext hd]
      exact hzero row hrow

theorem VisitsTo.reducedBelow (hvisit : r.VisitsTo c r') (h : r.ReducedBelow c.val) :
    r'.ReducedBelow (c.val + 1) := by
  cases hvisit with
  | skip hzero => exact h.skip hzero
  | @pivot chosen others hperm hne =>
      have hrest : ∀ row ∈ chosen :: others, ∀ d < c, row.coefficient d = 0 := by
        intro row hrow d hd
        exact h.rest row (hperm.mem_iff.mpr hrow) d hd
      apply h.withPivot
      · rw [Row.coefficient_scaled, mul_inv_cancel₀ hne]
      · intro d hd
        rw [Row.coefficient_scaled, hrest chosen List.mem_cons_self d hd, zero_mul]
      · intro row hrow
        exact hrest row (List.mem_cons_of_mem _ hrow)

/-! ## Visits of columns one after the other -/

/-- What visits of the given columns may leave, where each of them makes any choice. -/
inductive SweepsTo : List (Fin n) → Reduction n → Reduction n → Prop where
  | nil (r : Reduction n) : SweepsTo [] r r
  | cons {c : Fin n} {columns : List (Fin n)} {r after r' : Reduction n}
      (hvisit : r.VisitsTo c after) (hrest : SweepsTo columns after r') :
      SweepsTo (c :: columns) r r'

theorem exists_sweep (columns : List (Fin n)) (r : Reduction n) :
    ∃ r', columns.foldlM visit r = .ok r' ∧ SweepsTo columns r r' := by
  induction columns generalizing r with
  | nil => exact ⟨r, rfl, .nil r⟩
  | cons c columns ih =>
      obtain ⟨after, hvisit, hstep⟩ := r.exists_visit c
      obtain ⟨r', hrun, hsweep⟩ := ih after
      refine ⟨r', ?_, .cons hstep hsweep⟩
      rw [List.foldlM_cons, hvisit]
      exact hrun

theorem sweepsTo_of_visits {columns : List (Fin n)} (h : columns.foldlM visit r = .ok r') :
    SweepsTo columns r r' := by
  obtain ⟨after, hrun, hsweep⟩ := exists_sweep columns r
  rwa [Except.ok.inj (h.symm.trans hrun)]

theorem SweepsTo.rowEquivalent {columns : List (Fin n)} (h : SweepsTo columns r r') :
    RowEquivalent r'.rows r.rows := by
  induction h with
  | nil r => exact RowEquivalent.of_perm (List.Perm.refl _)
  | cons hvisit _ ih => exact ih.trans hvisit.rowEquivalent

/-- The columns from `k` on are visited, where those before were visited already. -/
theorem SweepsTo.reducedBelow {k : Nat} (h : SweepsTo ((List.finRange n).drop k) r r')
    (hk : k ≤ n) (hr : r.ReducedBelow k) : r'.ReducedBelow n := by
  induction hgap : n - k generalizing k r with
  | zero =>
      obtain rfl : k = n := by omega
      rw [List.drop_of_length_le (by simp)] at h
      cases h
      exact hr
  | succ gap ih =>
      have hlt : k < n := by omega
      rw [List.drop_eq_getElem_cons (by simpa using hlt), List.getElem_finRange] at h
      cases h with
      | cons hvisit hrest => exact ih hrest hlt (hvisit.reducedBelow hr) (by omega)

end Reduction

/-! ## All columns -/

/-- A reduction in which all columns were visited. -/
def Reduction.IsReduced (r : Reduction n) : Prop := r.ReducedBelow n

namespace AugmentedMatrix

/-- Elimination of all columns may leave this, if any row with an entry may be chosen for each
pivot. -/
def ReducesTo (m : AugmentedMatrix n) (r : Reduction n) : Prop :=
  Reduction.SweepsTo (List.finRange n) ⟨[], m.rows⟩ r

variable {m : AugmentedMatrix n} {r : Reduction n}

theorem ReducesTo.isReduced (h : m.ReducesTo r) : r.IsReduced :=
  Reduction.SweepsTo.reducedBelow (k := 0) h (Nat.zero_le n) (Reduction.reducedBelow_zero m.rows)

theorem ReducesTo.rowEquivalent (h : m.ReducesTo r) : RowEquivalent r.rows m.rows :=
  Reduction.SweepsTo.rowEquivalent h

theorem reducesTo_of_reduce (h : m.reduce = .ok r) : m.ReducesTo r :=
  Reduction.sweepsTo_of_visits h

theorem exists_reduce (m : AugmentedMatrix n) :
    ∃ r, m.reduce = .ok r ∧ r.IsReduced ∧ RowEquivalent r.rows m.rows := by
  obtain ⟨r, hreduce, -⟩ := Reduction.exists_sweep (List.finRange n) ⟨[], m.rows⟩
  have h := reducesTo_of_reduce hreduce
  exact ⟨r, hreduce, h.isReduced, h.rowEquivalent⟩

end AugmentedMatrix

end LinearSystems
