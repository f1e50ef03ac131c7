import LinearSystems.Proofs.Solving
import Mathlib.Data.List.Sort

/-!
# Reduced forms are canonical

Two reduced forms whose rows have the same solutions have the same pivots: the same columns
and the same rows in them. The columns are told by the homogeneous solutions, since a column
has no pivot just if some homogeneous solution ends in it. The entries of a row are told by
the solutions that are zero in all free columns but one.

So the values that solving finds depend on nothing but the solutions of the rows that were
reduced, and neither on their number nor on the order in which pivots were chosen.

* `homogeneous_iff_of_solution_iff`: consistent rows with the same solutions have the same
  homogeneous solutions.
* `IsReduced.not_mem_pivotColumns_iff`: the columns without a pivot, by solutions.
* `IsReduced.pivotColumns_eq`: reduced forms with the same homogeneous solutions.
* `IsReduced.pivots_eq`: reduced forms with the same solutions.
* `Solved.values_eq`, `Solved.solveMatrix_congr`: what solving makes of that.
-/

namespace LinearSystems

open Finset

variable {n : Nat}

/-- Where there is a solution, the homogeneous ones are the differences to it. -/
theorem homogeneous_iff_of_solution_iff {l l' : List (Row n)}
    (hexists : ∃ x : Fin n → Rat, ∀ row ∈ l, row.gap x 1 = 0)
    (h : ∀ x : Fin n → Rat, (∀ row ∈ l, row.gap x 1 = 0) ↔ ∀ row ∈ l', row.gap x 1 = 0)
    (x : Fin n → Rat) : (∀ row ∈ l, row.gap x 0 = 0) ↔ ∀ row ∈ l', row.gap x 0 = 0 := by
  obtain ⟨z, hz⟩ := hexists
  have hz' := (h z).mp hz
  have hsum := h (z + x)
  simp only [Row.gap_moved] at hsum
  constructor
  · intro hx row hrow
    have hboth := hsum.mp (fun row hrow => by rw [hz row hrow, hx row hrow, add_zero]) row hrow
    rwa [hz' row hrow, zero_add] at hboth
  · intro hx row hrow
    have hboth := hsum.mpr (fun row hrow => by rw [hz' row hrow, hx row hrow, add_zero]) row hrow
    rwa [hz row hrow, zero_add] at hboth

namespace Reduction

variable {r r' : Reduction n}

/-- A point solves the rows with a pivot, or their homogeneous equations, where `t` is zero. -/
def SolvesPivots (r : Reduction n) (x : Fin n → Rat) (t : Rat) : Prop :=
  ∀ p ∈ r.pivots, p.row.gap x t = 0

theorem IsReduced.solvesPivots_zero_iff (h : r.IsReduced) {l : List (Row n)}
    (hequiv : RowEquivalent r.rows l) (x : Fin n → Rat) :
    r.SolvesPivots x 0 ↔ ∀ row ∈ l, row.gap x 0 = 0 := by
  rw [← hequiv.gap_iff, h.homogeneous_iff]
  rfl

theorem IsReduced.solvesPivots_one_iff (h : r.IsReduced) (hcons : r.isContradictory = false)
    {l : List (Row n)} (hequiv : RowEquivalent r.rows l) (x : Fin n → Rat) :
    r.SolvesPivots x 1 ↔ ∀ row ∈ l, row.gap x 1 = 0 := by
  rw [← hequiv.gap_iff, h.solution_iff hcons]
  rfl

/-! ## Points by a single free column -/

/-- Any column can get any number, if it has no pivot, with zero in all other free columns. -/
theorem IsReduced.exists_single (h : r.IsReduced) {c : Fin n} (hc : c ∉ r.pivotColumns) :
    ∃ x, r.SolvesPivots x 0 ∧ x c = 1 ∧ ∀ d ∉ r.pivotColumns, d ≠ c → x d = 0 := by
  obtain ⟨x, hfree, hx⟩ := h.exists_point (Pi.single c 1) 0
  refine ⟨x, hx, ?_, fun d hd hne => ?_⟩
  · rw [hfree c hc, Pi.single_eq_same]
  · rw [hfree d hd, Pi.single_eq_of_ne hne]

/-- The row of a pivot, at a point that is zero in all free columns but one. -/
theorem IsReduced.column_eq_neg_coefficient (h : r.IsReduced) {p : Pivot n} (hp : p ∈ r.pivots)
    {c : Fin n} (hc : c ∉ r.pivotColumns) {x : Fin n → Rat} (hx : r.SolvesPivots x 0)
    (hone : x c = 1) (hzero : ∀ d ∉ r.pivotColumns, d ≠ c → x d = 0) :
    x p.column = -p.row.coefficient c := by
  have hgap := hx p hp
  have hsum : ∑ d with d ∉ r.pivotColumns, p.row.coefficient d * x d = p.row.coefficient c := by
    rw [sum_eq_single c]
    · rw [hone, mul_one]
    · intro d hd hne
      rw [hzero d (mem_filter.mp hd).2 hne, mul_zero]
    · intro hnot
      exact absurd (mem_filter.mpr ⟨mem_univ c, hc⟩) hnot
  rw [h.gap_pivot hp, hsum] at hgap
  linarith

/-! ## Columns -/

/-- A column has no pivot just if a homogeneous solution ends in it. -/
theorem IsReduced.not_mem_pivotColumns_iff (h : r.IsReduced) {c : Fin n} :
    c ∉ r.pivotColumns ↔ ∃ x, r.SolvesPivots x 0 ∧ x c ≠ 0 ∧ ∀ d, c < d → x d = 0 := by
  constructor
  · intro hc
    obtain ⟨x, hx, hone, hzero⟩ := h.exists_single hc
    refine ⟨x, hx, by rw [hone]; exact one_ne_zero, fun d hcd => ?_⟩
    by_cases hd : d ∈ r.pivotColumns
    · obtain ⟨p, hp, rfl⟩ := List.mem_map.mp hd
      rw [h.column_eq_neg_coefficient hp hc hx hone hzero, h.left p hp c hcd, neg_zero]
    · exact hzero d hd (ne_of_gt hcd)
  · rintro ⟨x, hx, hne, hzero⟩ hc
    obtain ⟨p, hp, rfl⟩ := List.mem_map.mp hc
    have hgap := hx p hp
    -- To the left of the pivot the row has no entries, to the right the point has none.
    have hsum : ∑ d with d ∉ r.pivotColumns, p.row.coefficient d * x d = 0 := by
      apply sum_eq_zero
      intro d hd
      rcases lt_trichotomy d p.column with hlt | heq | hlt
      · rw [h.left p hp d hlt, zero_mul]
      · exact absurd (heq ▸ hc) (mem_filter.mp hd).2
      · rw [hzero d hlt, mul_zero]
    rw [h.gap_pivot hp, hsum, mul_zero, add_zero, sub_zero] at hgap
    exact hne hgap

/-! ## Rows -/

section Same

variable (h : r.IsReduced) (h' : r'.IsReduced)
  (hsolution : ∀ x, r.SolvesPivots x 1 ↔ r'.SolvesPivots x 1)
  (hzero : ∀ x, r.SolvesPivots x 0 ↔ r'.SolvesPivots x 0)

include h h' hzero

theorem IsReduced.mem_pivotColumns_iff {c : Fin n} :
    c ∈ r.pivotColumns ↔ c ∈ r'.pivotColumns := by
  rw [← not_iff_not, h.not_mem_pivotColumns_iff, h'.not_mem_pivotColumns_iff]
  simp only [hzero]

theorem IsReduced.pivotColumns_eq : r.pivotColumns = r'.pivotColumns :=
  h.pivotColumns_eq_of_mem_iff h' fun _ => IsReduced.mem_pivotColumns_iff h h' hzero

theorem IsReduced.coefficient_eq {p p' : Pivot n} (hp : p ∈ r.pivots) (hp' : p' ∈ r'.pivots)
    (hcolumn : p.column = p'.column) (c : Fin n) :
    p.row.coefficient c = p'.row.coefficient c := by
  have hmem := fun d => IsReduced.mem_pivotColumns_iff h h' hzero (c := d)
  by_cases hc : c ∈ r.pivotColumns
  · obtain ⟨q', hq', hq'c⟩ := List.mem_map.mp ((hmem c).mp hc)
    obtain ⟨q, hq, rfl⟩ := List.mem_map.mp hc
    rw [h.unit p hp q hq, ← hq'c, h'.unit p' hp' q' hq', hcolumn]
  · obtain ⟨x, hx, hone, hfree⟩ := h.exists_single hc
    have hfree' : ∀ d ∉ r'.pivotColumns, d ≠ c → x d = 0 :=
      fun d hd => hfree d (fun hmem' => hd ((hmem d).mp hmem'))
    have hc' : c ∉ r'.pivotColumns := fun hmem' => hc ((hmem c).mpr hmem')
    have hleft := h.column_eq_neg_coefficient hp hc hx hone hfree
    have hright := h'.column_eq_neg_coefficient hp' hc' ((hzero x).mp hx) hone hfree'
    rw [← hcolumn, hleft] at hright
    exact neg_inj.mp hright

include hsolution

theorem IsReduced.constant_eq {p p' : Pivot n} (hp : p ∈ r.pivots) (hp' : p' ∈ r'.pivots)
    (hcolumn : p.column = p'.column) : p.row.constant = p'.row.constant := by
  obtain ⟨x, -, hx⟩ := h.exists_point 0 1
  have hcoefficient := IsReduced.coefficient_eq h h' hzero hp hp' hcolumn
  have hgap := hx p hp
  have hgap' := (hsolution x).mp hx p' hp'
  simp only [Row.gap, hcoefficient, mul_one] at hgap
  rw [Row.gap, mul_one] at hgap'
  linarith

theorem IsReduced.mem_pivots_of_mem {p : Pivot n} (hp : p ∈ r.pivots) : p ∈ r'.pivots := by
  have hc := (IsReduced.mem_pivotColumns_iff h h' hzero).mp (List.mem_map_of_mem hp)
  obtain ⟨p', hp', hcolumn⟩ := List.mem_map.mp hc
  have hrow : p.row = p'.row := by
    apply Row.ext_coefficient
    · exact IsReduced.coefficient_eq h h' hzero hp hp' hcolumn.symm
    · exact IsReduced.constant_eq h h' hsolution hzero hp hp' hcolumn.symm
  obtain ⟨column, row⟩ := p
  obtain ⟨column', row'⟩ := p'
  obtain rfl : column' = column := hcolumn
  obtain rfl : row = row' := hrow
  exact hp'

end Same

/-- Reduced forms with the same solutions and the same homogeneous solutions have the same
pivots. -/
theorem IsReduced.pivots_eq (h : r.IsReduced) (h' : r'.IsReduced)
    (hsolution : ∀ x, r.SolvesPivots x 1 ↔ r'.SolvesPivots x 1)
    (hzero : ∀ x, r.SolvesPivots x 0 ↔ r'.SolvesPivots x 0) : r.pivots = r'.pivots := by
  have hirrefl : Std.Irrefl fun p q : Pivot n => p.column < q.column := ⟨fun _ => lt_irrefl _⟩
  have hantisymm : Std.Antisymm fun p q : Pivot n => p.column < q.column :=
    ⟨fun _ _ hlt hgt => absurd hgt (lt_asymm hlt)⟩
  apply h.sorted.eq_of_mem_iff h'.sorted
  intro p
  constructor
  · exact IsReduced.mem_pivots_of_mem h h' hsolution hzero
  · exact IsReduced.mem_pivots_of_mem h' h (fun x => (hsolution x).symm) fun x => (hzero x).symm

end Reduction

/-! ## Runs of the solver -/

namespace Solved

variable {names : List String} {m m' : AugmentedMatrix names.length}
  {isApproximate isApproximate' : Bool}
  {r r' : Reduction names.length} {values values' : Fin names.length → Value}

theorem solvesPivots_iff (h : Solved m isApproximate r values) (x : Fin names.length → Rat) :
    r.SolvesPivots x 1 ↔ ∀ row ∈ solvedRows m isApproximate, row.gap x 1 = 0 :=
  h.isReduced.solvesPivots_one_iff h.consistent h.equivalent x

theorem exists_solution (h : Solved m isApproximate r values) :
    ∃ x : Fin names.length → Rat, ∀ row ∈ solvedRows m isApproximate, row.gap x 1 = 0 := by
  obtain ⟨x, hx⟩ := h.isReduced.exists_solution_iff.mpr h.consistent
  exact ⟨x, (h.equivalent.gap_iff x 1).mp hx⟩

/-- Reduced rows with the same solutions are reduced to the same pivots. -/
theorem pivots_eq (h : Solved m isApproximate r values) (h' : Solved m' isApproximate' r' values')
    (hsame : ∀ x : Fin names.length → Rat, (∀ row ∈ solvedRows m isApproximate, row.gap x 1 = 0) ↔
      ∀ row ∈ solvedRows m' isApproximate', row.gap x 1 = 0) : r.pivots = r'.pivots := by
  apply h.isReduced.pivots_eq h'.isReduced
  · intro x
    rw [h.solvesPivots_iff, h'.solvesPivots_iff, hsame]
  · intro x
    rw [h.isReduced.solvesPivots_zero_iff h.equivalent,
      h'.isReduced.solvesPivots_zero_iff h'.equivalent]
    exact homogeneous_iff_of_solution_iff h.exists_solution hsame x

theorem values_eq (h : Solved m isApproximate r values) (h' : Solved m' isApproximate' r' values')
    (hpivots : r.pivots = r'.pivots) : values = values' := by
  have hrun := h.backSubstitute_eq
  rw [Reduction.backSubstitute, hpivots] at hrun
  exact List.ofFn_injective (Except.ok.inj (hrun.symm.trans h'.backSubstitute_eq))

/-- Matrices are solved alike, if the rows that their solution rests on have the same
solutions. -/
theorem solveMatrix_congr (h : Solved m isApproximate r values)
    (h' : Solved m' isApproximate r' values')
    (hsame : ∀ x : Fin names.length → Rat, (∀ row ∈ solvedRows m isApproximate, row.gap x 1 = 0) ↔
      ∀ row ∈ solvedRows m' isApproximate, row.gap x 1 = 0) (settings : Settings) :
    solveMatrix settings names m = solveMatrix settings names m' := by
  have hpivots := h.pivots_eq h' hsame
  have hfree : r.freeColumns = r'.freeColumns :=
    Reduction.freeColumns_congr (congrArg (List.map Pivot.column) hpivots)
  rw [h.solveMatrix_eq, h'.solveMatrix_eq, h.values_eq h' hpivots, hfree]

end Solved

end LinearSystems
