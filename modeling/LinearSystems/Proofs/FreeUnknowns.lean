import LinearSystems.Proofs.CanonicalForm
import Mathlib.Algebra.BigOperators.Fin

/-!
# The free unknowns of a solution

A value is its constant and multiples of free unknowns, so the solutions of the rows that were
reduced are given by numbers for the free unknowns, and the constants and coefficients of the
values can be read off solutions: the constants are the solution that is zero in all free
columns, and the coefficients at a free unknown are the homogeneous solution that is one in
its column and zero in the other free ones.

For an exact solution these solutions are those of the rows themselves. They are those of the
normal equations as well, so that nothing here has to tell the two kinds of solution apart.

* `Solved.normalEquations_iff`, `Solved.homogeneous_iff`: the rows that were reduced, exact or
  not.
* `Solved.freeUnknowns_eq`, `Solved.get?_eq`: what a solution says of its unknowns.
* `Solved.point_eq`: a solution, by its numbers in the free columns.
* `Solved.constant_eq`, `Solved.coefficient_eq`: the values, by solutions.
* `Solved.freeUnknowns_congr`, `Solved.coefficient_congr`: what only depends on the left-hand
  sides of the rows.
-/

namespace LinearSystems

open Finset

namespace Value

/-! ## The terms of a value -/

theorem coefficient_eq_zero {v : Value} {name : String} (h : name ∉ v.freeUnknowns) :
    v.coefficient name = 0 := by
  rw [mem_freeUnknowns, Table.mem_keys_iff, not_not] at h
  rw [coefficient, Table.coefficient, h]
  rfl

/-- The number of a value, by its terms, over any names that its free unknowns are among. -/
theorem number_eq_sum {names : List String} (hnodup : names.Nodup) {v : Value}
    (h : ∀ name ∈ v.freeUnknowns, name ∈ names) (x : String → Rat) :
    v.number x = v.constant + ∑ j, v.coefficient (names.get j) * x (names.get j) := by
  have hsymbols : (Symbol.constant :: names.map Symbol.unknown).Nodup := by
    refine List.nodup_cons.mpr ⟨by simp, hnodup.map ?_⟩
    intro a b hab
    exact Symbol.unknown.inj hab
  have hkeys : ∀ k ∈ v.terms.keys, k ∈ Symbol.constant :: names.map Symbol.unknown := by
    intro k hk
    cases k with
    | constant => exact List.mem_cons_self
    | unknown name =>
        have hname := h name (mem_freeUnknowns.mpr hk)
        exact List.mem_cons_of_mem _ (List.mem_map_of_mem hname)
  have hlist : ∀ (l : List Symbol) (f : Symbol → Rat), ∑ j : Fin l.length, f (l.get j) =
      (l.map f).sum := fun l f => Fin.sum_univ_fun_getElem l f
  have hnames : ∑ j, v.coefficient (names.get j) * x (names.get j) =
      (names.map fun name => v.coefficient name * x name).sum :=
    Fin.sum_univ_fun_getElem names fun name => v.coefficient name * x name
  rw [number, Table.total_eq_sum (Symbol.number x) hsymbols hkeys,
    hlist _ fun k => v.terms.coefficient k * k.number x, List.map_cons, List.sum_cons,
    List.map_map, hnames]
  exact congrArg (· + _) (mul_one v.constant)

@[simp] theorem isFree_free (name : String) : (free name).isFree = true := by
  simp [isFree, free, ofTerms, prune, Table.filter, Table.singleton, coefficient,
    Table.coefficient, Table.find?]

/-- A free unknown is mentioned by its own value. -/
theorem isFree_eq_false {v : Value} (h : v.name ∉ v.freeUnknowns) : v.isFree = false := by
  rw [isFree, coefficient_eq_zero h, Bool.and_eq_false_iff]
  exact Or.inr rfl

end Value

/-! ## Points and names -/

/-- Numbers for columns are numbers for the names of the columns. -/
theorem exists_comp_get {names : List String} (hnodup : names.Nodup)
    (x : Fin names.length → Rat) : ∃ σ : String → Rat, σ ∘ names.get = x :=
  ⟨Function.extend names.get x 0,
    Function.extend_comp (List.nodup_iff_injective_get.mp hnodup) x 0⟩

namespace Solved

variable {names : List String} {m : AugmentedMatrix names.length} {isApproximate : Bool}
  {r : Reduction names.length} {values : Fin names.length → Value}

/-! ## The rows that were reduced -/

/-- The solutions that the values describe are those of the normal equations, also where the
rows themselves have solutions. -/
theorem normalEquations_iff (h : Solved m isApproximate r values) (x : Fin names.length → Rat) :
    (∀ row ∈ solvedRows m isApproximate, row.gap x 1 = 0) ↔
      ∀ row ∈ m.normalEquations.rows, row.gap x 1 = 0 := by
  cases isApproximate with
  | true => rfl
  | false => exact (AugmentedMatrix.solution_normalEquations_iff h.exists_solution x).symm

theorem homogeneous_iff (h : Solved m isApproximate r values) (y : Fin names.length → Rat) :
    r.SolvesPivots y 0 ↔ ∀ row ∈ m.rows, row.gap y 0 = 0 := by
  rw [← homogeneous_solvedRows_iff m isApproximate]
  exact h.isReduced.solvesPivots_zero_iff h.equivalent y

/-! ## What a solution says of its unknowns -/

theorem not_mem_freeUnknowns (h : Solved m isApproximate r values) (hnodup : names.Nodup)
    {c : Fin names.length} (hc : c ∈ r.pivotColumns) (d : Fin names.length) :
    names.get c ∉ (values d).freeUnknowns := by
  intro hmem
  obtain ⟨c', -, hc', heq⟩ := h.substituted.mentions d _ hmem
  rw [List.nodup_iff_injective_get.mp hnodup heq] at hc
  exact hc' hc

theorem isFree_iff (h : Solved m isApproximate r values) (hnodup : names.Nodup)
    (d : Fin names.length) : (values d).isFree = true ↔ d ∉ r.pivotColumns := by
  constructor
  · intro hfree hd
    have hself := h.not_mem_freeUnknowns hnodup hd d
    rw [← h.substituted.name d] at hself
    rw [Value.isFree_eq_false hself] at hfree
    cases hfree
  · intro hd
    rw [h.substituted.free d hd, Value.isFree_free]

/-- The free unknowns of a solution are the names of the free columns. -/
theorem freeUnknowns_eq (h : Solved m isApproximate r values) (hnodup : names.Nodup) :
    Solution.freeUnknowns ⟨List.ofFn values, isApproximate⟩ = r.freeColumns.map names.get := by
  have hfilter : (List.finRange names.length).filter (Value.isFree ∘ values) = r.freeColumns := by
    apply List.filter_congr
    intro d _
    rw [Bool.eq_iff_iff, Function.comp_apply, h.isFree_iff hnodup d]
    simp
  rw [Solution.freeUnknowns, List.ofFn_eq_map, List.filter_map, List.map_map, hfilter]
  apply List.map_congr_left
  intro d _
  exact h.substituted.name d

theorem mem_freeUnknowns_iff (h : Solved m isApproximate r values) (hnodup : names.Nodup)
    {name : String} : name ∈ Solution.freeUnknowns ⟨List.ofFn values, isApproximate⟩ ↔
      ∃ c, c ∉ r.pivotColumns ∧ names.get c = name := by
  simp only [h.freeUnknowns_eq hnodup, List.mem_map, Reduction.mem_freeColumns]

theorem get?_eq (h : Solved m isApproximate r values) (hnodup : names.Nodup)
    (d : Fin names.length) :
    Solution.get? ⟨List.ofFn values, isApproximate⟩ (names.get d) = some (values d) := by
  have hname : ((values d).name == names.get d) = true := by
    rw [h.substituted.name d]
    exact beq_self_eq_true _
  rw [Solution.get?]
  cases hfind : (List.ofFn values).find? (·.name == names.get d) with
  | none => exact absurd hname (List.find?_eq_none.mp hfind _ (List.mem_ofFn.mpr ⟨d, rfl⟩))
  | some v =>
      obtain ⟨c, rfl⟩ := List.mem_ofFn.mp (List.mem_of_find?_eq_some hfind)
      have hc : names.get c = names.get d := by
        rw [← h.substituted.name c]
        simpa using List.find?_some hfind
      rw [List.nodup_iff_injective_get.mp hnodup hc]

/-! ## Solutions by their free unknowns -/

/-- A solution is given by its numbers in the free columns. -/
theorem point_eq (h : Solved m isApproximate r values) (hnodup : names.Nodup)
    {x : Fin names.length → Rat} (hx : ∀ row ∈ solvedRows m isApproximate, row.gap x 1 = 0)
    (d : Fin names.length) : x d = (values d).constant +
      ∑ c with c ∉ r.pivotColumns, (values d).coefficient (names.get c) * x c := by
  obtain ⟨σ, rfl⟩ := exists_comp_get hnodup x
  have hvalue := (h.agree_iff σ).mpr hx d
  have hpivots : ∑ c with c ∈ r.pivotColumns,
      (values d).coefficient (names.get c) * σ (names.get c) = 0 := by
    apply sum_eq_zero
    intro c hc
    rw [Value.coefficient_eq_zero (h.not_mem_freeUnknowns hnodup (mem_filter.mp hc).2 d), zero_mul]
  rw [Value.number_eq_sum hnodup (h.mem_names d),
    ← sum_filter_add_sum_filter_not univ (· ∈ r.pivotColumns), hpivots, zero_add] at hvalue
  exact hvalue.symm

/-- The constants are the solution that is zero in all free columns. -/
theorem constant_eq (h : Solved m isApproximate r values) (hnodup : names.Nodup)
    {x : Fin names.length → Rat} (hx : ∀ row ∈ solvedRows m isApproximate, row.gap x 1 = 0)
    (hzero : ∀ c ∉ r.pivotColumns, x c = 0) (d : Fin names.length) :
    (values d).constant = x d := by
  rw [h.point_eq hnodup hx d, sum_eq_zero, add_zero]
  intro c hc
  rw [hzero c (mem_filter.mp hc).2, mul_zero]

/-- The coefficients at a free unknown are the homogeneous solution that is one in its column
and zero in the other free columns. -/
theorem coefficient_eq (h : Solved m isApproximate r values) (hnodup : names.Nodup)
    {c : Fin names.length} (hc : c ∉ r.pivotColumns) {y : Fin names.length → Rat}
    (hy : r.SolvesPivots y 0) (hone : y c = 1) (hzero : ∀ d ∉ r.pivotColumns, d ≠ c → y d = 0)
    (d : Fin names.length) : (values d).coefficient (names.get c) = y d := by
  obtain ⟨x, hx⟩ := h.exists_solution
  have hsum : ∀ row ∈ solvedRows m isApproximate, row.gap (x + y) 1 = 0 := by
    rw [← h.solvesPivots_iff] at hx ⊢
    intro p hp
    rw [Row.gap_moved, hx p hp, hy p hp, add_zero]
  have hleft := h.point_eq hnodup hx d
  have hright := h.point_eq hnodup hsum d
  have hterm : ∑ e with e ∉ r.pivotColumns, (values d).coefficient (names.get e) * y e =
      (values d).coefficient (names.get c) := by
    rw [sum_eq_single c]
    · rw [hone, mul_one]
    · intro e he hne
      rw [hzero e (mem_filter.mp he).2 hne, mul_zero]
    · intro hnot
      exact absurd (mem_filter.mpr ⟨mem_univ c, hc⟩) hnot
  simp only [Pi.add_apply, mul_add, sum_add_distrib, hterm] at hright
  linarith

/-! ## Rows with the same left-hand sides -/

section Same

variable {m' : AugmentedMatrix names.length} {isApproximate' : Bool}
  {r' : Reduction names.length} {values' : Fin names.length → Value}
  (h : Solved m isApproximate r values) (h' : Solved m' isApproximate' r' values')
  (hnodup : names.Nodup)
  (hzero : ∀ y : Fin names.length → Rat,
    (∀ row ∈ m.rows, row.gap y 0 = 0) ↔ ∀ row ∈ m'.rows, row.gap y 0 = 0)

include h h' hzero

theorem solvesPivots_zero_congr (y : Fin names.length → Rat) :
    r.SolvesPivots y 0 ↔ r'.SolvesPivots y 0 := by
  rw [h.homogeneous_iff, h'.homogeneous_iff, hzero]

theorem mem_pivotColumns_congr (c : Fin names.length) :
    c ∈ r.pivotColumns ↔ c ∈ r'.pivotColumns :=
  Reduction.IsReduced.mem_pivotColumns_iff h.isReduced h'.isReduced
    (h.solvesPivots_zero_congr h' hzero)

include hnodup

/-- The right-hand sides have no part in which unknowns are free. -/
theorem freeUnknowns_congr : Solution.freeUnknowns ⟨List.ofFn values, isApproximate⟩ =
    Solution.freeUnknowns ⟨List.ofFn values', isApproximate'⟩ := by
  have hcolumns : r.freeColumns = r'.freeColumns :=
    Reduction.freeColumns_congr
      (h.isReduced.pivotColumns_eq_of_mem_iff h'.isReduced (h.mem_pivotColumns_congr h' hzero))
  rw [h.freeUnknowns_eq hnodup, h'.freeUnknowns_eq hnodup, hcolumns]

/-- Nor have they one in how the values depend on the free unknowns. -/
theorem coefficient_congr (d : Fin names.length) (name : String) :
    (values d).coefficient name = (values' d).coefficient name := by
  have hmem := h.mem_pivotColumns_congr h' hzero
  by_cases hfree : ∃ c, c ∉ r.pivotColumns ∧ names.get c = name
  · obtain ⟨c, hc, rfl⟩ := hfree
    obtain ⟨y, hy, hone, hnone⟩ := h.isReduced.exists_single hc
    have hc' : c ∉ r'.pivotColumns := mt (hmem c).mpr hc
    have hnone' : ∀ e ∉ r'.pivotColumns, e ≠ c → y e = 0 :=
      fun e he => hnone e (mt (hmem e).mp he)
    have hy' := (h.solvesPivots_zero_congr h' hzero y).mp hy
    rw [h.coefficient_eq hnodup hc hy hone hnone, h'.coefficient_eq hnodup hc' hy' hone hnone']
  · have hleft : name ∉ (values d).freeUnknowns := by
      intro hname
      obtain ⟨c, -, hc, rfl⟩ := h.substituted.mentions d name hname
      exact hfree ⟨c, hc, rfl⟩
    have hright : name ∉ (values' d).freeUnknowns := by
      intro hname
      obtain ⟨c, -, hc, rfl⟩ := h'.substituted.mentions d name hname
      exact hfree ⟨c, mt (hmem c).mp hc, rfl⟩
    rw [Value.coefficient_eq_zero hleft, Value.coefficient_eq_zero hright]

end Same

end Solved

end LinearSystems
