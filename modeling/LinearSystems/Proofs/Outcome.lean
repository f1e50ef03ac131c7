import LinearSystems.Proofs.SolutionSets

/-!
# The outcome of solving

Solving reads its outcome off two reductions, that of the rows and that of the normal
equations. Here it is said by the equations alone: whether some assignment solves them, and
whether the left-hand sides vanish at zero only. The settings decide which outcomes are
accepted, and never what the solution is.

* `isApproximate_iff`, `freeColumns_eq_nil_iff_hasFullRank`: the two questions, as they are
  answered by the reductions.
* `solve_outcome`: the outcome for all settings.
-/

namespace LinearSystems

namespace Solved

variable {s : LinearSystem} {isApproximate : Bool} {r : Reduction s.unknowns.length}
  {values : Fin s.unknowns.length → Value} {settings : Settings} {solution : Solution}

theorem isApproximate_iff (h : Solved s.matrix isApproximate r values) :
    isApproximate = true ↔ ¬ s.IsConsistent := by
  rw [h.approximate_iff, s.isConsistent_iff]

theorem freeColumns_eq_nil_iff_hasFullRank (h : Solved s.matrix isApproximate r values) :
    r.freeColumns = [] ↔ s.HasFullRank := by
  rw [h.freeColumns_eq_nil_iff, s.hasFullRank_iff]

/-- Whether the settings accept free unknowns, or there are none. -/
theorem accepted_iff (h : Solved s.matrix isApproximate r values) (settings : Settings) :
    ¬ (settings.policy = .strict ∧ r.freeColumns ≠ []) ↔
      settings.policy = .parametrize ∨ s.HasFullRank := by
  rw [← h.freeColumns_eq_nil_iff_hasFullRank]
  cases settings.policy <;> simp

theorem solve_eq_ok_iff (h : Solved s.matrix isApproximate r values) :
    s.solve settings = .ok solution ↔
      solution = ⟨List.ofFn values, isApproximate⟩ ∧
        (isApproximate = true → settings.leastSquares = true) ∧
        (settings.policy = .parametrize ∨ s.HasFullRank) := by
  have hrun := h.solve_eq settings
  rw [← h.accepted_iff settings]
  constructor
  · intro hsolve
    rw [hsolve] at hrun
    refine ⟨h.eq_of_solve hsolve, fun happrox => ?_, fun hstrict => ?_⟩
    · by_contra hoff
      rw [if_pos ⟨happrox, Bool.eq_false_iff.mpr hoff⟩] at hrun
      cases hrun
    · rw [if_pos hstrict] at hrun
      split at hrun <;> cases hrun
  · rintro ⟨rfl, hon, haccepted⟩
    have hleast : ¬ (isApproximate = true ∧ settings.leastSquares = false) := by
      rintro ⟨happrox, hoff⟩
      rw [hon happrox] at hoff
      cases hoff
    rw [if_neg hleast, if_neg haccepted] at hrun
    exact hrun

theorem solve_eq_ok_or_unsolvable (h : Solved s.matrix isApproximate r values)
    (settings : Settings) :
    (∃ solution, s.solve settings = .ok solution) ∨
      ∃ cause, s.solve settings = .error (.error (.unsolvable cause)) := by
  rw [h.solve_eq settings]
  split
  · exact Or.inr ⟨_, rfl⟩
  · split
    · exact Or.inr ⟨_, rfl⟩
    · exact Or.inl ⟨_, rfl⟩

theorem assignment_isSome_iff (h : Solved s.matrix isApproximate r values) :
    (Solution.assignment? ⟨List.ofFn values, isApproximate⟩).isSome = true ↔ s.HasFullRank := by
  rw [← h.freeColumns_eq_nil_iff_hasFullRank, ← h.isUnique_iff, Solution.assignment?]
  split
  · next hunique => simp [hunique]
  · next hunique => simp [hunique]

end Solved

/-- **The outcome of solving is decided by the equations.** For all settings, the solution
is exact, approximate or refused as the consistency and the rank of the equations say; it
is an assignment just if the rank is full; and no settings change it. -/
theorem LinearSystem.solve_outcome (s : LinearSystem) (settings : Settings) :
    ((∃ solution, s.solve settings = .ok solution ∧ solution.isApproximate = false) ↔
      s.IsConsistent ∧ (settings.policy = .parametrize ∨ s.HasFullRank)) ∧
    ((∃ solution, s.solve settings = .ok solution ∧ solution.isApproximate = true) ↔
      ¬ s.IsConsistent ∧ settings.leastSquares = true ∧
        (settings.policy = .parametrize ∨ s.HasFullRank)) ∧
    ((∃ solution, s.solve settings = .ok solution) ∨
      ∃ cause, s.solve settings = .error (.error (.unsolvable cause))) ∧
    (∀ solution, s.solve settings = .ok solution →
      (solution.assignment?.isSome = true ↔ s.HasFullRank)) ∧
    ∀ other solution solution', s.solve settings = .ok solution →
      s.solve other = .ok solution' → solution = solution' := by
  obtain ⟨isApproximate, r, values, h⟩ := exists_solved s.matrix
  have happrox := h.isApproximate_iff
  refine ⟨?_, ?_, h.solve_eq_ok_or_unsolvable settings, ?_, ?_⟩
  · constructor
    · rintro ⟨solution, hsolve, hexact⟩
      obtain ⟨rfl, -, haccepted⟩ := h.solve_eq_ok_iff.mp hsolve
      refine ⟨?_, haccepted⟩
      by_contra hcons
      exact Bool.false_ne_true (hexact.symm.trans (happrox.mpr hcons))
    · rintro ⟨hcons, haccepted⟩
      have hexact : isApproximate = false :=
        Bool.eq_false_iff.mpr fun htrue => happrox.mp htrue hcons
      refine ⟨_, h.solve_eq_ok_iff.mpr ⟨rfl, fun htrue => ?_, haccepted⟩, hexact⟩
      exact absurd hcons (happrox.mp htrue)
  · constructor
    · rintro ⟨solution, hsolve, htrue⟩
      obtain ⟨rfl, hon, haccepted⟩ := h.solve_eq_ok_iff.mp hsolve
      exact ⟨happrox.mp htrue, hon htrue, haccepted⟩
    · rintro ⟨hcons, hon, haccepted⟩
      exact ⟨_, h.solve_eq_ok_iff.mpr ⟨rfl, fun _ => hon, haccepted⟩, happrox.mpr hcons⟩
  · intro solution hsolve
    obtain rfl := h.eq_of_solve hsolve
    exact h.assignment_isSome_iff
  · intro other solution solution' hsolve hsolve'
    exact (h.eq_of_solve hsolve).trans (h.eq_of_solve hsolve').symm

end LinearSystems
