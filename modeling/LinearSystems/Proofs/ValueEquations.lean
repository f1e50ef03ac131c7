import LinearSystems.Proofs.FormArithmetic
import LinearSystems.Proofs.Rearrangement
import LinearSystems.Proofs.SolutionSets

/-!
# Values as equations

Each value of a solution is an equation, with its unknown on the left. These equations have
the same unknowns as the system, and just the solutions of the rows that were reduced. So
they are consistent, and solved to the same values again, also where the values are only an
approximation for the system that they come from.

* `Value.IsSaidBy`: two sides say that an unknown has a value.
* `Solved.solveSides_eq`: the equations of the values, solved.
-/

namespace LinearSystems

/-- The sides say that the unknown has the value. -/
structure Value.IsSaidBy (v : Value) (sides : Sides) : Prop where
  number_left : ∀ x : String → Rat, sides.left.number x = x v.name
  number_right : ∀ x : String → Rat, sides.right.number x = v.number x
  name_mem : v.name ∈ (Equation.ofSides sides).unknowns
  mem_unknowns : ∀ name ∈ (Equation.ofSides sides).unknowns,
    name = v.name ∨ name ∈ v.freeUnknowns

/-! ## Sides as rows -/

theorem Equation.total_ofSides (s : Sides) (x : String → Rat) : (ofSides s).coefficients.total x =
    s.left.coefficients.total x - s.right.coefficients.total x := by
  have hneg : s.right.coefficients.map (-·) = s.right.coefficients.map (· * (-1)) := by
    simp only [mul_neg_one]
  rw [ofSides, Table.total_merge, hneg, Table.total_map_mul, mul_neg_one, sub_eq_add_neg]

theorem Equation.gap_rowOf_ofSides {names : List String} (hnodup : names.Nodup) {s : Sides}
    (hmem : ∀ name ∈ (ofSides s).unknowns, name ∈ names) (x : String → Rat) :
    (LinearSystem.rowOf names (ofSides s)).gap (x ∘ names.get) 1 =
      s.left.number x - s.right.number x := by
  have htotal := Table.total_eq_sum x hnodup hmem
  rw [total_ofSides] at htotal
  have hvalue : (ofSides s).value = s.right.constant - s.left.constant := rfl
  have hsum : ∑ j, (ofSides s).coefficient (names.get j) * (x ∘ names.get) j =
      s.left.coefficients.total x - s.right.coefficients.total x := htotal.symm
  rw [LinearSystem.gap_rowOf, hsum, hvalue, LinearForm.number, LinearForm.number]
  ring

/-! ## The equations of the values -/

section Solved

variable {s : LinearSystem} {isApproximate : Bool} {r : Reduction s.unknowns.length}
  {values : Fin s.unknowns.length → Value} {sides : Fin s.unknowns.length → Sides}

/-- The equations that say what the values are. -/
def sidesEquations (sides : Fin s.unknowns.length → Sides) : List Equation :=
  (List.ofFn sides).map Equation.ofSides

theorem mem_sidesEquations {e : Equation} :
    e ∈ sidesEquations sides ↔ ∃ d, Equation.ofSides (sides d) = e := by
  simp [sidesEquations, List.mem_ofFn]

theorem Solved.mem_names_of_isSaidBy (h : Solved s.matrix isApproximate r values)
    (hsides : ∀ d, (values d).IsSaidBy (sides d)) (d : Fin s.unknowns.length) :
    ∀ name ∈ (Equation.ofSides (sides d)).unknowns, name ∈ s.unknowns := by
  intro name hname
  rcases (hsides d).mem_unknowns name hname with rfl | hfree
  · rw [h.substituted.name d]
    exact List.get_mem _ _
  · exact h.mem_names d name hfree

theorem Solved.unknownsOf_sidesEquations (h : Solved s.matrix isApproximate r values)
    (hsides : ∀ d, (values d).IsSaidBy (sides d)) :
    unknownsOf (sidesEquations sides) = s.unknowns := by
  apply sortedKeys_eq
  intro name
  rw [← mem_sortedKeys (l := s.equations.flatMap Equation.unknowns)]
  constructor
  · intro hname
    obtain ⟨e, he, hname⟩ := List.mem_flatMap.mp hname
    obtain ⟨d, rfl⟩ := mem_sidesEquations.mp he
    exact h.mem_names_of_isSaidBy hsides d name hname
  · intro hname
    obtain ⟨d, rfl⟩ := List.mem_iff_get.mp hname
    refine List.mem_flatMap.mpr ⟨_, mem_sidesEquations.mpr ⟨d, rfl⟩, ?_⟩
    have hself := (hsides d).name_mem
    rwa [h.substituted.name d] at hself

/-- The equations of the values have the solutions of the rows that were reduced. -/
theorem Solved.gap_sidesEquations_iff (h : Solved s.matrix isApproximate r values)
    (hsides : ∀ d, (values d).IsSaidBy (sides d)) (x : Fin s.unknowns.length → Rat) :
    (∀ row ∈ solvedRows s.matrix isApproximate, row.gap x 1 = 0) ↔
      ∀ row ∈ (LinearSystem.matrixOver s.unknowns (sidesEquations sides)).rows,
        row.gap x 1 = 0 := by
  obtain ⟨σ, rfl⟩ : ∃ σ : String → Rat, σ ∘ s.unknowns.get = x :=
    ⟨_, LinearSystem.point_ofPoint x⟩
  have hgap : ∀ d, (LinearSystem.rowOf s.unknowns (Equation.ofSides (sides d))).gap
      (σ ∘ s.unknowns.get) 1 = σ (s.unknowns.get d) - (values d).number σ := by
    intro d
    rw [Equation.gap_rowOf_ofSides s.nodup_unknowns (h.mem_names_of_isSaidBy hsides d),
      (hsides d).number_left, (hsides d).number_right, h.substituted.name d]
  rw [← h.agree_iff]
  constructor
  · intro hagree row hrow
    obtain ⟨e, he, rfl⟩ := LinearSystem.mem_matrixOver.mp hrow
    obtain ⟨d, rfl⟩ := mem_sidesEquations.mp he
    rw [hgap, hagree d, sub_self]
  · intro hrows d
    have hzero := hrows _ (LinearSystem.mem_matrixOver.mpr
      ⟨_, mem_sidesEquations.mpr ⟨d, rfl⟩, rfl⟩)
    rw [hgap] at hzero
    exact (sub_eq_zero.mp hzero).symm

/-- The equations of the values of a solution are solved exactly, by the same values. -/
theorem Solved.solveSides_eq (h : Solved s.matrix isApproximate r values)
    (hsides : ∀ d, (values d).IsSaidBy (sides d)) :
    solveSides {} (List.ofFn sides) = .ok ⟨List.ofFn values, false⟩ := by
  have hunknowns := h.unknownsOf_sidesEquations hsides
  have hu : unknownsOf (sidesEquations sides) ≠ [] := hunknowns ▸ s.unknowns_ne_nil
  have he : sidesEquations sides ≠ [] := by
    intro hnil
    exact hu (by rw [hnil]; rfl)
  have hsystem : LinearSystem.ofEquations (sidesEquations sides) = .ok ⟨_, he, hu⟩ :=
    LinearSystem.ofEquations_eq_ok_iff.mpr rfl
  have hstart : solveSides {} (List.ofFn sides) =
      LinearSystem.solve {} ⟨sidesEquations sides, he, hu⟩ := by
    rw [solveSides, ← sidesEquations, hsystem]
    rfl
  rw [hstart, LinearSystem.solve_eq_solveMatrix (s := ⟨sidesEquations sides, he, hu⟩) hunknowns]
  obtain ⟨isApproximate', r', values', h'⟩ :=
    exists_solved (LinearSystem.matrixOver s.unknowns (sidesEquations sides))
  have hsame := h.gap_sidesEquations_iff hsides
  -- The rows that were reduced have a solution even if the values only approximate.
  obtain rfl : isApproximate' = false := by
    apply Bool.eq_false_iff.mpr
    intro htrue
    obtain ⟨x, hx⟩ := h.exists_solution
    exact h'.approximate_iff.mp htrue ⟨x, (hsame x).mp hx⟩
  obtain rfl : values = values' := h.values_eq h' (h.pivots_eq h' hsame)
  rw [h'.solveMatrix_eq, if_neg (by simp), if_neg (by simp)]

end Solved

end LinearSystems
