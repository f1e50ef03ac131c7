import LinearSystems.Proofs.FormArithmetic
import LinearSystems.Proofs.FreeUnknowns
import LinearSystems.Proofs.NamedColumns
import LinearSystems.Proofs.SolutionSets

/-!
# Numbers for the free unknowns

The free unknowns of a solution may be any numbers. If an equation is added for each of
them that says which number it is, the system is solved without free unknowns, to the
numbers that the values of the solution then are.

The system stays exact or approximate as it was. The new equations hold at the point that
the values then are, so that they add nothing to the normal equations there: the point
solves the normal equations of the new rows as it solves those of the old ones.

* `Solution.pins`: the equations that are added.
* `gap_pinned_iff`: the points where all rows have no gap.
* `Solved.freeColumns_pinned_eq_nil`, `Solved.exists_pinned_point`: no free unknowns are left,
  and the solution is the point of the values.
* `LinearSystem.exists_solve_pinned`: the new system, solved.
-/

namespace LinearSystems

open Finset

/-- The equation that says which number an unknown is. -/
def Equation.pin (name : String) (q : Rat) : Equation := ⟨Table.singleton name 1, q⟩

namespace Solution

/-- The equations that say which numbers the free unknowns are. -/
def pins (s : Solution) (numbers : String → Rat) : List Equation :=
  s.freeUnknowns.map fun name => .pin name (numbers name)

/-- Numbers for the free unknowns, and for no others. -/
def choosing (s : Solution) (numbers : String → Rat) (name : String) : Option Rat :=
  if name ∈ s.freeUnknowns then some (numbers name) else none

end Solution

/-! ## Rows of pins -/

theorem Equation.coefficient_pin (name other : String) (q : Rat) :
    (pin name q).coefficient other = if other = name then 1 else 0 := by
  unfold coefficient Table.coefficient pin
  rw [Table.find?_singleton]
  split <;> rfl

section Rows

variable {names : List String} {equations : List Equation} {columns : List (Fin names.length)}
  {numbers : String → Rat}

theorem gap_rowOf_pin (hnodup : names.Nodup) (d : Fin names.length) (q : Rat)
    (x : Fin names.length → Rat) (t : Rat) :
    (LinearSystem.rowOf names (.pin (names.get d) q)).gap x t = x d - q * t := by
  have hsum : ∑ j, (Equation.pin (names.get d) q).coefficient (names.get j) * x j = x d := by
    rw [sum_eq_single d]
    · rw [Equation.coefficient_pin, if_pos rfl, one_mul]
    · intro j _ hne
      have hname : names.get j ≠ names.get d :=
        fun heq => hne (List.nodup_iff_injective_get.mp hnodup heq)
      rw [Equation.coefficient_pin, if_neg hname, zero_mul]
    · intro hnot
      exact absurd (mem_univ d) hnot
  rw [LinearSystem.gap_rowOf, hsum]
  rfl

/-- The equations with pins for the names of some columns. -/
def pinned (names : List String) (equations : List Equation) (columns : List (Fin names.length))
    (numbers : String → Rat) : List Equation :=
  equations ++ (columns.map names.get).map fun name => .pin name (numbers name)

theorem gap_pinned_iff (hnodup : names.Nodup) (x : Fin names.length → Rat) (t : Rat) :
    (∀ row ∈ (LinearSystem.matrixOver names (pinned names equations columns numbers)).rows,
        row.gap x t = 0) ↔
      (∀ row ∈ (LinearSystem.matrixOver names equations).rows, row.gap x t = 0) ∧
        ∀ d ∈ columns, x d = numbers (names.get d) * t := by
  have hpins : (∀ d ∈ columns, (LinearSystem.rowOf names
        (.pin (names.get d) (numbers (names.get d)))).gap x t = 0) ↔
      ∀ d ∈ columns, x d = numbers (names.get d) * t := by
    simp only [gap_rowOf_pin hnodup, sub_eq_zero]
  rw [← hpins]
  simp only [pinned, LinearSystem.matrixOver, List.map_append, List.map_map, List.forall_mem_append,
    List.forall_mem_map, Function.comp_apply]

/-- Where the pins have no gap, they add nothing to the normal equations. -/
theorem gap_normalEquations_pinned (hnodup : names.Nodup) {x : Fin names.length → Rat}
    (hx : ∀ d ∈ columns, x d = numbers (names.get d))
    (hnormal : ∀ row ∈ (LinearSystem.matrixOver names equations).normalEquations.rows,
      row.gap x 1 = 0) :
    ∀ row ∈ (LinearSystem.matrixOver names
        (pinned names equations columns numbers)).normalEquations.rows, row.gap x 1 = 0 := by
  intro row hrow
  obtain ⟨i, rfl⟩ := AugmentedMatrix.mem_normalEquations.mp hrow
  have hzero := hnormal _ (AugmentedMatrix.mem_normalEquations.mpr ⟨i, rfl⟩)
  rw [AugmentedMatrix.gap_normalRow] at hzero ⊢
  rw [LinearSystem.matrixOver] at hzero ⊢
  rw [pinned, List.map_append, List.map_append, List.sum_append, hzero, zero_add]
  apply List.sum_eq_zero
  intro q hq
  simp only [List.map_map, List.mem_map, Function.comp_apply] at hq
  obtain ⟨d, hd, rfl⟩ := hq
  rw [gap_rowOf_pin hnodup, hx d hd, mul_one, sub_self, mul_zero]

end Rows

/-! ## The solution with pins -/

namespace Solved

variable {names : List String} {equations : List Equation} {isApproximate isApproximate' : Bool}
  {r r' : Reduction names.length} {values values' : Fin names.length → Value}
  {numbers : String → Rat}

/-- The point of the values, where the free unknowns have their numbers. -/
theorem exists_pinned_point
    (h : Solved (LinearSystem.matrixOver names equations) isApproximate r values)
    (hnodup : names.Nodup) (numbers : String → Rat) :
    ∃ x : Fin names.length → Rat, (∀ d ∈ r.freeColumns, x d = numbers (names.get d)) ∧
      (∀ row ∈ solvedRows (LinearSystem.matrixOver names equations) isApproximate,
        row.gap x 1 = 0) ∧
      ∀ d, (values d).evaluate (Solution.choosing ⟨List.ofFn values, isApproximate⟩ numbers) =
        some (x d) := by
  obtain ⟨x, hfree, hpivots⟩ := h.isReduced.exists_point (numbers ∘ names.get) 1
  have hx := (h.solvesPivots_iff x).mp hpivots
  refine ⟨x, fun d hd => hfree d (Reduction.mem_freeColumns.mp hd), hx, fun d => ?_⟩
  obtain ⟨σ, hσ⟩ := exists_comp_get hnodup x
  have hchosen : ∀ name ∈ (values d).freeUnknowns,
      Solution.choosing ⟨List.ofFn values, isApproximate⟩ numbers name = some (σ name) := by
    intro name hname
    obtain ⟨c, -, hc, rfl⟩ := h.substituted.mentions d name hname
    have hmem := (h.mem_freeUnknowns_iff hnodup).mpr ⟨c, hc, rfl⟩
    have hnumber : σ (names.get c) = numbers (names.get c) := by
      rw [← Function.comp_apply (f := σ), hσ, hfree c hc]
      rfl
    rw [Solution.choosing, if_pos hmem, hnumber]
  have hnumber : (values d).number σ = σ (names.get d) := by
    rw [← hσ] at hx
    exact (h.agree_iff σ).mpr hx d
  rw [Value.evaluate_eq_some hchosen, hnumber, ← hσ]
  rfl

section Same

variable (h : Solved (LinearSystem.matrixOver names equations) isApproximate r values)
  (h' : Solved (LinearSystem.matrixOver names (pinned names equations r.freeColumns numbers))
    isApproximate' r' values')
  (hnodup : names.Nodup)

include h h' hnodup

theorem isApproximate_pinned_eq : isApproximate' = isApproximate := by
  rw [Bool.eq_iff_iff, h.approximate_iff, h'.approximate_iff, not_iff_not]
  constructor
  · rintro ⟨x, hx⟩
    exact ⟨x, ((gap_pinned_iff hnodup x 1).mp hx).1⟩
  · intro hcons
    obtain rfl : isApproximate = false :=
      Bool.eq_false_iff.mpr fun htrue => h.approximate_iff.mp htrue hcons
    obtain ⟨x, hfree, hx, -⟩ := h.exists_pinned_point hnodup numbers
    refine ⟨x, (gap_pinned_iff hnodup x 1).mpr ⟨hx, fun d hd => ?_⟩⟩
    rw [hfree d hd, mul_one]

theorem freeColumns_pinned_eq_nil : r'.freeColumns = [] := by
  rw [h'.freeColumns_eq_nil_iff]
  intro x hx
  obtain ⟨hrows, hfree⟩ := (gap_pinned_iff hnodup x 0).mp hx
  have hzero : ∀ d ∉ r.pivotColumns, x d = 0 := by
    intro d hd
    rw [hfree d (Reduction.mem_freeColumns.mpr hd), mul_zero]
  have hpivots := (h.homogeneous_iff x).mpr hrows
  funext d
  by_cases hd : d ∈ r.pivotColumns
  · obtain ⟨p, hp, rfl⟩ := List.mem_map.mp hd
    have hgap := hpivots p hp
    have hsum : ∑ c with c ∉ r.pivotColumns, p.row.coefficient c * x c = 0 := by
      apply sum_eq_zero
      intro c hc
      rw [hzero c (mem_filter.mp hc).2, mul_zero]
    rwa [h.isReduced.gap_pivot hp, hsum, mul_zero, add_zero, sub_zero] at hgap
  · exact hzero d hd

/-- The values of the system with pins are the numbers that the values then are. -/
theorem evaluate_eq_constant_pinned (d : Fin names.length) :
    (values d).evaluate (Solution.choosing ⟨List.ofFn values, isApproximate⟩ numbers) =
      some (values' d).constant := by
  obtain ⟨x, hfree, hx, hvalues⟩ := h.exists_pinned_point hnodup numbers
  have hnormal := (h'.normalEquations_iff x).mpr
    (gap_normalEquations_pinned hnodup hfree ((h.normalEquations_iff x).mp hx))
  have hnone : ∀ c ∉ r'.pivotColumns, x c = 0 := by
    intro c hc
    have hmem := Reduction.mem_freeColumns.mpr hc
    rw [freeColumns_pinned_eq_nil h h' hnodup] at hmem
    cases hmem
  rw [hvalues d, h'.constant_eq hnodup hnormal hnone d]

end Same

/-- The numbers of the values, if there are no free unknowns. -/
theorem exists_assignment {m : AugmentedMatrix names.length}
    (h : Solved m isApproximate r values)
    (hsorted : names.Pairwise (fun a b => Key.before a b = true)) (hfree : r.freeColumns = []) :
    ∃ assigned, Solution.assignment? ⟨List.ofFn values, isApproximate⟩ = some assigned ∧
      assigned.keys = names ∧ ∀ d, assigned.find? (names.get d) = some (values d).constant := by
  have hpairs : (List.ofFn values).map (fun v => (v.name, v.constant)) =
      List.ofFn fun d => (names.get d, (values d).constant) := by
    rw [List.map_ofFn]
    congr 1
    funext d
    rw [Function.comp_apply, h.substituted.name d]
  have hkeys : (List.ofFn fun d => (names.get d, (values d).constant)).map Prod.fst = names := by
    rw [List.map_ofFn]
    exact List.ofFn_get names
  have hentries : (Table.ofList (List.ofFn fun d => (names.get d, (values d).constant))).entries =
      List.ofFn fun d => (names.get d, (values d).constant) := by
    apply Table.entries_ofList
    rw [← hkeys] at hsorted
    exact List.pairwise_map.mp hsorted
  refine ⟨_, by rw [Solution.assignment?, if_pos (h.isUnique_iff.mpr hfree), hpairs], ?_, ?_⟩
  · rw [Table.keys, hentries, hkeys]
  · intro d
    apply Table.find?_eq_some_iff.mpr
    rw [hentries]
    exact List.mem_ofFn.mpr ⟨d, rfl⟩

end Solved

/-! ## Systems -/

namespace LinearSystem

theorem unknownsOf_pinned (s : LinearSystem) (columns : List (Fin s.unknowns.length))
    (numbers : String → Rat) :
    unknownsOf (pinned s.unknowns s.equations columns numbers) = s.unknowns := by
  apply sortedKeys_eq
  intro name
  rw [pinned, List.flatMap_append, List.mem_append, or_iff_left_iff_imp]
  intro hname
  obtain ⟨e, he, hname⟩ := List.mem_flatMap.mp hname
  simp only [List.map_map, List.mem_map, Function.comp_apply] at he
  obtain ⟨d, -, rfl⟩ := he
  obtain rfl : name = s.unknowns.get d := List.mem_singleton.mp hname
  exact mem_sortedKeys.mp (List.get_mem _ d)

/-- **Free unknowns can be any numbers.** Every system is solved, and so is the system with
equations that say which numbers the free unknowns are. The second solution is exact or
approximate as the first one, and an assignment: it gives each unknown the number that its
value in the first solution is for these numbers. -/
theorem exists_solve_pinned (s : LinearSystem) :
    ∃ solution, s.solve {} = .ok solution ∧ ∀ numbers : String → Rat,
      ∃ p, solveEquations {} (s.equations ++ solution.pins numbers) = .ok p ∧
        p.isApproximate = solution.isApproximate ∧
        ∃ assigned, p.assignment? = some assigned ∧ assigned.keys = s.unknowns ∧
          ∀ name ∈ s.unknowns, ∃ v q, solution.get? name = some v ∧
            v.evaluate (solution.choosing numbers) = some q ∧
            assigned.find? name = some q := by
  obtain ⟨isApproximate, r, values, h⟩ := exists_solved s.matrix
  have hnodup := s.nodup_unknowns
  refine ⟨_, h.solveMatrix_default, fun numbers => ?_⟩
  have hequations : s.equations ++ Solution.pins ⟨List.ofFn values, isApproximate⟩ numbers =
      pinned s.unknowns s.equations r.freeColumns numbers := by
    rw [Solution.pins, h.freeUnknowns_eq hnodup, pinned]
  have hne : pinned s.unknowns s.equations r.freeColumns numbers ≠ [] :=
    List.append_ne_nil_of_left_ne_nil s.equations_ne_nil _
  obtain ⟨isApproximate', r', values', h'⟩ := exists_solved
    (matrixOver s.unknowns (pinned s.unknowns s.equations r.freeColumns numbers))
  obtain ⟨assigned, hassigned, hkeys, hfind⟩ :=
    h'.exists_assignment s.unknowns_sorted (h.freeColumns_pinned_eq_nil h' hnodup)
  refine ⟨⟨List.ofFn values', isApproximate'⟩, ?_, h.isApproximate_pinned_eq h' hnodup, assigned,
    hassigned, hkeys, fun name hname => ?_⟩
  · rw [hequations, solveEquations_eq_solveMatrix hne (s.unknownsOf_pinned _ _) s.unknowns_ne_nil]
    exact h'.solveMatrix_default
  · obtain ⟨d, rfl⟩ := List.mem_iff_get.mp hname
    exact ⟨values d, (values' d).constant, h.get?_eq hnodup d,
      h.evaluate_eq_constant_pinned h' hnodup d, hfind d⟩

end LinearSystem

end LinearSystems
