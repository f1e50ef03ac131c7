import LinearSystems.Proofs.Assignments
import LinearSystems.Proofs.Solving

/-!
# What a solution describes

The values of a solution are taken as equations: an assignment agrees with a value if it
gives the unknown the number that the value then is. The assignments that agree with all
values of an exact solution are the solutions of the system, no more and no fewer. Those
that agree with all values of an approximate one have the least sum of squared residuals,
and no others have it, also where there are many of them.

* `Substituted.agrees_iff`, `Solved.agrees_iff`: agreement with the values, by their numbers and by
  the rows that were reduced.
* `isSolvedBy_iff_agrees`: exact solutions.
* `isLeastAt_iff_agrees`: approximate solutions.
-/

namespace LinearSystems

/-- The assignment gives the unknown of a value the number that the value is. -/
def Value.AgreesAt (v : Value) (σ : String → Option Rat) : Prop :=
  ∃ q, σ v.name = some q ∧ v.evaluate σ = some q

/-- Numbers for all names agree with the values of the columns just if each name has the number
that its value then is. -/
theorem Substituted.agrees_iff {names : List String} {P : List (Pivot names.length)}
    {values : Fin names.length → Value} (h : Substituted names P values)
    {σ : String → Option Rat} {x : String → Rat} (hσ : ∀ name ∈ names, σ name = some (x name)) :
    (∀ v ∈ List.ofFn values, v.AgreesAt σ) ↔ ∀ d, (values d).number x = x (names.get d) := by
  rw [List.forall_mem_ofFn_iff]
  apply forall_congr'
  intro d
  have hname : σ (values d).name = some (x (names.get d)) := by
    rw [h.name d]
    exact hσ _ (List.get_mem _ _)
  have hvalue : (values d).evaluate σ = some ((values d).number x) :=
    Value.evaluate_eq_some fun name hmem => hσ name (h.mem_names d name hmem)
  rw [Value.AgreesAt, hname, hvalue]
  constructor
  · rintro ⟨q, hq, hq'⟩
    exact Option.some.inj (hq'.trans hq.symm)
  · intro heq
    exact ⟨_, rfl, congrArg some heq⟩

namespace Solved

variable {s : LinearSystem} {isApproximate : Bool} {r : Reduction s.unknowns.length}
  {values : Fin s.unknowns.length → Value} {settings : Settings} {solution : Solution}

theorem solve_eq (h : Solved s.matrix isApproximate r values) (settings : Settings) :
    s.solve settings =
      if isApproximate = true ∧ settings.leastSquares = false then
        .error (.error (.unsolvable .inconsistent))
      else if settings.policy = .strict ∧ r.freeColumns ≠ [] then
        .error (.error (.unsolvable (.freeUnknowns (r.freeColumns.map s.unknowns.get))))
      else .ok ⟨List.ofFn values, isApproximate⟩ :=
  h.solveMatrix_eq settings

/-- A solution, if there is one, holds the values. -/
theorem eq_of_solve (h : Solved s.matrix isApproximate r values)
    (hsolve : s.solve settings = .ok solution) :
    solution = ⟨List.ofFn values, isApproximate⟩ := by
  rw [h.solve_eq settings] at hsolve
  split at hsolve
  · cases hsolve
  · split at hsolve
    · cases hsolve
    · exact (Except.ok.inj hsolve).symm

theorem agrees_iff (h : Solved s.matrix isApproximate r values) {σ : String → Option Rat}
    (hσ : s.Assigned σ) :
    (∀ v ∈ List.ofFn values, v.AgreesAt σ) ↔
      ∀ row ∈ solvedRows s.matrix isApproximate, row.gap (s.point σ) 1 = 0 := by
  rw [LinearSystem.point, ← h.agree_iff]
  exact h.substituted.agrees_iff fun name hname => hσ.eq_some hname

end Solved

namespace LinearSystem

/-! ## Exact solutions -/

/-- **Exact solutions are sound and complete.** An assignment of all unknowns solves the
system if and only if it agrees with every value of the solution. -/
theorem isSolvedBy_iff_agrees {settings : Settings} {s : LinearSystem} {solution : Solution}
    (hsolve : s.solve settings = .ok solution) (hexact : solution.isApproximate = false)
    {σ : String → Option Rat} (hσ : s.Assigned σ) :
    (∀ e ∈ s.equations, e.residual σ = some 0) ↔ ∀ v ∈ solution.values, v.AgreesAt σ := by
  obtain ⟨isApproximate, r, values, h⟩ := exists_solved s.matrix
  obtain rfl := h.eq_of_solve hsolve
  obtain rfl : isApproximate = false := hexact
  rw [h.agrees_iff hσ]
  exact isSolvedBy_iff hσ

/-- Two planes, `x - y + z = 1` and `x + y - z = 2`. -/
def twoPlanes : LinearSystem where
  equations := [⟨Table.ofList [("x", 1), ("y", -1), ("z", 1)], 1⟩,
    ⟨Table.ofList [("x", 1), ("y", 1), ("z", -1)], 2⟩]
  equations_ne_nil := by decide
  unknowns_ne_nil := by decide +kernel

/-- The line in which they meet. -/
def meetingLine : Solution where
  values := [.resolved "x" (3 / 2), .resolved "y" (1 / 2) + .free "z", .free "z"]
  isApproximate := false

def onMeetingLine (name : String) : Option Rat :=
  some (if name = "x" then 3 / 2 else if name = "y" then 9 / 2 else 4)

theorem isSolvedBy_iff_agrees_twoPlanes :
    twoPlanes.solve {} = .ok meetingLine ∧ meetingLine.isApproximate = false ∧
      twoPlanes.Assigned onMeetingLine ∧
      (∀ e ∈ twoPlanes.equations, e.residual onMeetingLine = some 0) ∧
      ((∀ e ∈ twoPlanes.equations, e.residual onMeetingLine = some 0) ↔
        ∀ v ∈ meetingLine.values, v.AgreesAt onMeetingLine) := by
  have hsolve : twoPlanes.solve {} = .ok meetingLine := by decide +kernel
  have hassigned : twoPlanes.Assigned onMeetingLine := fun _ _ => ⟨_, rfl⟩
  refine ⟨hsolve, rfl, hassigned, by decide +kernel, ?_⟩
  exact isSolvedBy_iff_agrees hsolve rfl hassigned

/-! ## Approximate solutions -/

/-- **Approximate solutions are the points of the least squares.** An assignment of all
unknowns has the least sum of squared residuals if and only if it agrees with every value
of the solution. -/
theorem isLeastAt_iff_agrees {settings : Settings} {s : LinearSystem} {solution : Solution}
    (hsolve : s.solve settings = .ok solution) (happrox : solution.isApproximate = true)
    {σ : String → Option Rat} (hσ : s.Assigned σ) :
    s.IsLeastAt σ ↔ ∀ v ∈ solution.values, v.AgreesAt σ := by
  obtain ⟨isApproximate, r, values, h⟩ := exists_solved s.matrix
  obtain rfl := h.eq_of_solve hsolve
  obtain rfl : isApproximate = true := happrox
  rw [h.agrees_iff hσ, isLeastAt_iff hσ]
  exact (s.matrix.normalEquations_iff_least (s.point σ)).symm

/-- Three planes without a common point, `2x + 2y - 2z = 5`, `7x + 7y + z = 10` and
`5x + 5y - z = 5`. -/
def threePlanes : LinearSystem where
  equations := [⟨Table.ofList [("x", 2), ("y", 2), ("z", -2)], 5⟩,
    ⟨Table.ofList [("x", 7), ("y", 7), ("z", 1)], 10⟩,
    ⟨Table.ofList [("x", 5), ("y", 5), ("z", -1)], 5⟩]
  equations_ne_nil := by decide
  unknowns_ne_nil := by decide +kernel

/-- The line that is closest to them. -/
def closestLine : Solution where
  values := [.resolved "x" (155 / 116) + (Value.free "y").scaled (-1), .free "y",
    .resolved "z" (-45 / 116)]
  isApproximate := true

def onClosestLine (name : String) : Option Rat :=
  some (if name = "x" then 39 / 116 else if name = "y" then 1 else -45 / 116)

theorem isLeastAt_iff_agrees_threePlanes :
    threePlanes.solve {} = .ok closestLine ∧ closestLine.isApproximate = true ∧
      threePlanes.Assigned onClosestLine ∧
      (threePlanes.IsLeastAt onClosestLine ↔
        ∀ v ∈ closestLine.values, v.AgreesAt onClosestLine) := by
  have hsolve : threePlanes.solve {} = .ok closestLine := by decide +kernel
  have hassigned : threePlanes.Assigned onClosestLine := fun _ _ => ⟨_, rfl⟩
  exact ⟨hsolve, rfl, hassigned, isLeastAt_iff_agrees hsolve rfl hassigned⟩

end LinearSystem

end LinearSystems
