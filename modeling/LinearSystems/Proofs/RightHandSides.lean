import LinearSystems.Proofs.FreeUnknowns
import LinearSystems.Proofs.NamedColumns

/-!
# Systems with other right-hand sides

Systems with the same left-hand sides are solved with the same free unknowns, and their
values depend on these in the same way. Only the constants of the values differ, and they
are linear in the right-hand sides.

Some of the systems may be exact and others approximate. The constants are, for each of them,
the solution of the normal equations that is zero in all free columns, and the normal
equations are linear in the right-hand sides.

* `equationsOf`: equations of given left-hand sides and right-hand sides.
* `gap_combination`: the gaps of a combination of points.
* `Solved.constant_combination`: the constants of a combination of right-hand sides.
* `solve_combination`: systems with the same left-hand sides, solved.
-/

namespace LinearSystems

open Finset LinearSystem

variable {coefficients : List (Table String)} {names : List String}

/-- The equations with these left-hand sides and right-hand sides. -/
def equationsOf (coefficients : List (Table String)) (b : Fin coefficients.length → Rat) :
    List Equation :=
  List.ofFn fun i => ⟨coefficients.get i, b i⟩

/-! ## Left-hand sides -/

theorem unknownsOf_equationsOf (b : Fin coefficients.length → Rat) :
    unknownsOf (equationsOf coefficients b) = sortedKeys (coefficients.flatMap Table.keys) := by
  have hleft : (equationsOf coefficients b).map Equation.coefficients = coefficients := by
    rw [equationsOf, List.map_ofFn]
    exact List.ofFn_get coefficients
  have hkeys : (equationsOf coefficients b).flatMap Equation.unknowns =
      coefficients.flatMap Table.keys :=
    calc (equationsOf coefficients b).flatMap Equation.unknowns
      _ = ((equationsOf coefficients b).map Equation.coefficients).flatMap Table.keys :=
          (List.flatMap_map Equation.coefficients Table.keys _).symm
      _ = coefficients.flatMap Table.keys := by rw [hleft]
  rw [unknownsOf, hkeys]

theorem gap_rowOf_mk (t : Table String) (q : Rat) (x : Fin names.length → Rat) (s : Rat) :
    (rowOf names ⟨t, q⟩).gap x s = (∑ j, t.coefficient (names.get j) * x j) - q * s :=
  gap_rowOf names ⟨t, q⟩ x s

theorem mem_matrixOver_equationsOf {b : Fin coefficients.length → Rat} {row : Row names.length} :
    row ∈ (matrixOver names (equationsOf coefficients b)).rows ↔
      ∃ i, rowOf names ⟨coefficients.get i, b i⟩ = row := by
  simp [matrixOver, equationsOf, List.mem_ofFn]

theorem homogeneous_equationsOf_iff (b b' : Fin coefficients.length → Rat)
    (y : Fin names.length → Rat) :
    (∀ row ∈ (matrixOver names (equationsOf coefficients b)).rows, row.gap y 0 = 0) ↔
      ∀ row ∈ (matrixOver names (equationsOf coefficients b')).rows, row.gap y 0 = 0 := by
  have hgap : ∀ i, (rowOf names ⟨coefficients.get i, b i⟩).gap y 0 =
      (rowOf names ⟨coefficients.get i, b' i⟩).gap y 0 := by
    intro i
    rw [gap_rowOf_mk, gap_rowOf_mk, mul_zero, mul_zero]
  simp only [mem_matrixOver_equationsOf, forall_exists_index, forall_apply_eq_imp_iff, hgap]

/-! ## Combinations -/

section Combination

variable {b₁ b₂ : Fin coefficients.length → Rat} {x₁ x₂ : Fin names.length → Rat} {α β : Rat}

theorem gap_combination (i : Fin coefficients.length) :
    (rowOf names ⟨coefficients.get i, (α • b₁ + β • b₂) i⟩).gap (α • x₁ + β • x₂) 1 =
      α * (rowOf names ⟨coefficients.get i, b₁ i⟩).gap x₁ 1 +
        β * (rowOf names ⟨coefficients.get i, b₂ i⟩).gap x₂ 1 := by
  have hsum : ∑ j, (coefficients.get i).coefficient (names.get j) * (α • x₁ + β • x₂) j =
      α * ∑ j, (coefficients.get i).coefficient (names.get j) * x₁ j +
        β * ∑ j, (coefficients.get i).coefficient (names.get j) * x₂ j := by
    rw [mul_sum, mul_sum, ← sum_add_distrib]
    apply sum_congr rfl
    intro j _
    simp only [Pi.add_apply, Pi.smul_apply, smul_eq_mul]
    ring
  rw [gap_rowOf_mk, gap_rowOf_mk, gap_rowOf_mk, hsum]
  simp only [Pi.add_apply, Pi.smul_apply, smul_eq_mul]
  ring

theorem gap_normalRow_combination (c : Fin names.length) :
    ((matrixOver names (equationsOf coefficients (α • b₁ + β • b₂))).normalRow c).gap
        (α • x₁ + β • x₂) 1 =
      α * ((matrixOver names (equationsOf coefficients b₁)).normalRow c).gap x₁ 1 +
        β * ((matrixOver names (equationsOf coefficients b₂)).normalRow c).gap x₂ 1 := by
  have hnormal : ∀ (b : Fin coefficients.length → Rat) (x : Fin names.length → Rat),
      ((matrixOver names (equationsOf coefficients b)).normalRow c).gap x 1 =
        ∑ i, (coefficients.get i).coefficient (names.get c) *
          (rowOf names ⟨coefficients.get i, b i⟩).gap x 1 := by
    intro b x
    rw [AugmentedMatrix.gap_normalRow, matrixOver, equationsOf, List.map_ofFn, List.map_ofFn,
      List.sum_ofFn]
    apply sum_congr rfl
    intro i _
    rw [Function.comp_apply, Function.comp_apply, coefficient_rowOf]
    rfl
  rw [hnormal, hnormal, hnormal, mul_sum, mul_sum, ← sum_add_distrib]
  apply sum_congr rfl
  intro i _
  rw [gap_combination]
  ring

end Combination

namespace Solved

variable {b₁ b₂ : Fin coefficients.length → Rat} {α β : Rat}
  {isApproximate₁ isApproximate₂ isApproximate₃ : Bool}
  {r₁ r₂ r₃ : Reduction names.length} {values₁ values₂ values₃ : Fin names.length → Value}

/-- The constants of the values solve the normal equations. -/
theorem exists_constants {m : AugmentedMatrix names.length} (h : Solved m isApproximate₁ r₁ values₁)
    (hnodup : names.Nodup) : ∃ x : Fin names.length → Rat,
      (∀ row ∈ m.normalEquations.rows, row.gap x 1 = 0) ∧ (∀ c ∉ r₁.pivotColumns, x c = 0) ∧
      ∀ d, (values₁ d).constant = x d := by
  obtain ⟨x, hzero, hpivots⟩ := h.isReduced.exists_point 0 1
  have hx := (h.solvesPivots_iff x).mp hpivots
  exact ⟨x, (h.normalEquations_iff x).mp hx, hzero, h.constant_eq hnodup hx hzero⟩

/-- The constants are linear in the right-hand sides. -/
theorem constant_combination
    (h₁ : Solved (matrixOver names (equationsOf coefficients b₁)) isApproximate₁ r₁ values₁)
    (h₂ : Solved (matrixOver names (equationsOf coefficients b₂)) isApproximate₂ r₂ values₂)
    (h₃ : Solved (matrixOver names (equationsOf coefficients (α • b₁ + β • b₂))) isApproximate₃ r₃
      values₃)
    (hnodup : names.Nodup) (d : Fin names.length) :
    (values₃ d).constant = α * (values₁ d).constant + β * (values₂ d).constant := by
  obtain ⟨x₁, hx₁, hzero₁, hconstant₁⟩ := h₁.exists_constants hnodup
  obtain ⟨x₂, hx₂, hzero₂, hconstant₂⟩ := h₂.exists_constants hnodup
  have hx₃ : ∀ row ∈ (matrixOver names
      (equationsOf coefficients (α • b₁ + β • b₂))).normalEquations.rows,
      row.gap (α • x₁ + β • x₂) 1 = 0 := by
    intro row hrow
    obtain ⟨c, rfl⟩ := AugmentedMatrix.mem_normalEquations.mp hrow
    rw [gap_normalRow_combination, hx₁ _ (AugmentedMatrix.mem_normalEquations.mpr ⟨c, rfl⟩),
      hx₂ _ (AugmentedMatrix.mem_normalEquations.mpr ⟨c, rfl⟩), mul_zero, mul_zero, add_zero]
  have hzero₃ : ∀ c ∉ r₃.pivotColumns, (α • x₁ + β • x₂) c = 0 := by
    intro c hc
    have hc₁ := mt (h₁.mem_pivotColumns_congr h₃ (homogeneous_equationsOf_iff _ _) c).mp hc
    have hc₂ := mt (h₂.mem_pivotColumns_congr h₃ (homogeneous_equationsOf_iff _ _) c).mp hc
    simp [hzero₁ c hc₁, hzero₂ c hc₂]
  rw [h₃.constant_eq hnodup ((h₃.normalEquations_iff _).mpr hx₃) hzero₃, hconstant₁, hconstant₂]
  rfl

end Solved

/-! ## Systems -/

/-- **Solving is linear in the right-hand sides.** Systems with the same left-hand sides, of
which at least one has an unknown, are solved with the same free unknowns and the same
coefficients at them, whether they are exact or approximate. The constants for a combination
of right-hand sides are the combination of the constants. -/
theorem solve_combination (hunknowns : ∃ t ∈ coefficients, t.keys ≠ [])
    (b₁ b₂ : Fin coefficients.length → Rat) (α β : Rat) :
    ∃ s₁ s₂ s₃, solveEquations {} (equationsOf coefficients b₁) = .ok s₁ ∧
      solveEquations {} (equationsOf coefficients b₂) = .ok s₂ ∧
      solveEquations {} (equationsOf coefficients (fun i => α * b₁ i + β * b₂ i)) = .ok s₃ ∧
      s₁.freeUnknowns = s₂.freeUnknowns ∧ s₁.freeUnknowns = s₃.freeUnknowns ∧
      ∀ t ∈ coefficients, ∀ name ∈ t.keys, ∃ v₁ v₂ v₃,
        s₁.get? name = some v₁ ∧ s₂.get? name = some v₂ ∧ s₃.get? name = some v₃ ∧
        (∀ z, v₁.coefficient z = v₂.coefficient z ∧ v₁.coefficient z = v₃.coefficient z) ∧
        v₃.constant = α * v₁.constant + β * v₂.constant := by
  obtain ⟨names, hnames⟩ : ∃ names, sortedKeys (coefficients.flatMap Table.keys) = names := ⟨_, rfl⟩
  have hmem : ∀ name, name ∈ names ↔ ∃ t ∈ coefficients, name ∈ t.keys := by
    intro name
    rw [← hnames, mem_sortedKeys, List.mem_flatMap]
  have hnodup : names.Nodup := hnames ▸ (sortedKeys_sorted _).imp Key.ne_of_before
  obtain ⟨t, ht, hkeys⟩ := hunknowns
  obtain ⟨first, hfirst⟩ := List.exists_mem_of_ne_nil _ hkeys
  have hnonempty : names ≠ [] := List.ne_nil_of_mem ((hmem first).mpr ⟨t, ht, hfirst⟩)
  have hequations : ∀ b, equationsOf coefficients b ≠ [] := by
    intro b hnil
    have hlength := congrArg List.length hnil
    rw [equationsOf, List.length_ofFn] at hlength
    exact List.ne_nil_of_mem ht (List.length_eq_zero_iff.mp hlength)
  have hsolve : ∀ b, solveEquations {} (equationsOf coefficients b) =
      solveMatrix {} names (matrixOver names (equationsOf coefficients b)) := fun b =>
    solveEquations_eq_solveMatrix (hequations b) ((unknownsOf_equationsOf b).trans hnames)
      hnonempty {}
  obtain ⟨isApproximate₁, r₁, values₁, h₁⟩ :=
    exists_solved (matrixOver names (equationsOf coefficients b₁))
  obtain ⟨isApproximate₂, r₂, values₂, h₂⟩ :=
    exists_solved (matrixOver names (equationsOf coefficients b₂))
  obtain ⟨isApproximate₃, r₃, values₃, h₃⟩ :=
    exists_solved (matrixOver names (equationsOf coefficients (α • b₁ + β • b₂)))
  have hzero := @homogeneous_equationsOf_iff coefficients names
  refine ⟨_, _, _, (hsolve b₁).trans h₁.solveMatrix_default,
    (hsolve b₂).trans h₂.solveMatrix_default, (hsolve _).trans h₃.solveMatrix_default,
    h₁.freeUnknowns_congr h₂ hnodup (hzero _ _),
    h₁.freeUnknowns_congr h₃ hnodup (hzero _ _), fun t ht name hname => ?_⟩
  obtain ⟨d, rfl⟩ := List.mem_iff_get.mp ((hmem name).mpr ⟨t, ht, hname⟩)
  refine ⟨_, _, _, h₁.get?_eq hnodup d, h₂.get?_eq hnodup d, h₃.get?_eq hnodup d, fun z => ?_,
    h₁.constant_combination h₂ h₃ hnodup d⟩
  exact ⟨h₁.coefficient_congr h₂ hnodup (hzero _ _) d z,
    h₁.coefficient_congr h₃ hnodup (hzero _ _) d z⟩

/-- The left-hand sides `u + v`, `u + v` and `w`. -/
def parallelSides : List (Table String) :=
  [⟨[("u", 1), ("v", 1)], by decide⟩, ⟨[("u", 1), ("v", 1)], by decide⟩, ⟨[("w", 1)], by decide⟩]

/-- Planes that meet, planes that do not, and a combination of both. -/
theorem solve_combination_parallel :
    (∃ t ∈ parallelSides, t.keys ≠ []) ∧
      ∃ s₁ s₂ s₃, solveEquations {} (equationsOf parallelSides ![1, 1, 2]) = .ok s₁ ∧
        solveEquations {} (equationsOf parallelSides ![0, 1, 3]) = .ok s₂ ∧
        solveEquations {} (equationsOf parallelSides
          fun i => 2 * ![1, 1, 2] i + (-4) * ![0, 1, 3] i) = .ok s₃ ∧
        s₁.isApproximate = false ∧ s₂.isApproximate = true ∧
        s₁.freeUnknowns = s₃.freeUnknowns ∧
        ∃ v₁ v₂ v₃, s₁.get? "u" = some v₁ ∧ s₂.get? "u" = some v₂ ∧ s₃.get? "u" = some v₃ ∧
          v₃.constant = 2 * v₁.constant + (-4) * v₂.constant := by
  have hunknowns : ∃ t ∈ parallelSides, t.keys ≠ [] := by decide
  have hexact : (solveEquations {} (equationsOf parallelSides ![1, 1, 2])).map
      Solution.isApproximate = .ok false := by decide +kernel
  have happrox : (solveEquations {} (equationsOf parallelSides ![0, 1, 3])).map
      Solution.isApproximate = .ok true := by decide +kernel
  obtain ⟨s₁, s₂, s₃, h₁, h₂, h₃, -, hfree, hvalues⟩ :=
    solve_combination hunknowns ![1, 1, 2] ![0, 1, 3] 2 (-4)
  obtain ⟨v₁, v₂, v₃, hv₁, hv₂, hv₃, -, hconstant⟩ :=
    hvalues ⟨[("u", 1), ("v", 1)], by decide⟩ (by decide) "u" (by decide)
  rw [h₁] at hexact
  rw [h₂] at happrox
  exact ⟨hunknowns, s₁, s₂, s₃, h₁, h₂, h₃, Except.ok.inj hexact, Except.ok.inj happrox, hfree,
    v₁, v₂, v₃, hv₁, hv₂, hv₃, hconstant⟩

end LinearSystems
