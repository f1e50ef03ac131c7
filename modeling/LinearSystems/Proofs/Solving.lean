import LinearSystems.Proofs.NormalEquations
import LinearSystems.Proofs.Substitution
import LinearSystems.Solver

/-!
# A run of the solver

Solving a matrix rests on one reduction that does not depend on the settings: that of the
rows, if they have a solution, and that of the normal equations, if not. The settings only
decide whether the values it gives are returned or an error is. `Solved` has all this for
one matrix; whatever is claimed about solving is derived from it.

* `exists_solved`: every matrix has such a reduction and such values.
* `Solved.freeColumns_eq_nil_iff`: there are no free columns just if the homogeneous rows
  have no solution but zero.
* `Solved.isUnique_iff`: all values are numbers just if there are no free columns.
-/

namespace LinearSystems

variable {names : List String} {m : AugmentedMatrix names.length}

/-- The equations that solving a matrix comes down to. -/
def solvedRows (m : AugmentedMatrix names.length) (isApproximate : Bool) :
    List (Row names.length) :=
  if isApproximate then m.normalEquations.rows else m.rows

/-- Whether or not they are the normal equations, they have the homogeneous solutions of the
rows. -/
theorem homogeneous_solvedRows_iff (m : AugmentedMatrix names.length) (isApproximate : Bool)
    (x : Fin names.length → Rat) :
    (∀ row ∈ solvedRows m isApproximate, row.gap x 0 = 0) ↔ ∀ row ∈ m.rows, row.gap x 0 = 0 := by
  cases isApproximate with
  | false => rfl
  | true => exact m.homogeneous_normalEquations_iff x

/-- What a matrix is solved by, whatever the settings. -/
structure Solved (m : AugmentedMatrix names.length) (isApproximate : Bool)
    (r : Reduction names.length) (values : Fin names.length → Value) : Prop where
  isReduced : r.IsReduced
  consistent : r.isContradictory = false
  equivalent : RowEquivalent r.rows (solvedRows m isApproximate)
  approximate_iff : isApproximate = true ↔
    ¬ ∃ x : Fin names.length → Rat, ∀ row ∈ m.rows, row.gap x 1 = 0
  substituted : Substituted names r.pivots values
  backSubstitute_eq : r.backSubstitute names = .ok (List.ofFn values)
  solveMatrix_eq : ∀ settings, solveMatrix settings names m =
    if isApproximate = true ∧ settings.leastSquares = false then
      .error (.error (.unsolvable .inconsistent))
    else if settings.policy = .strict ∧ r.freeColumns ≠ [] then
      .error (.error (.unsolvable (.freeUnknowns (r.freeColumns.map names.get))))
    else .ok ⟨List.ofFn values, isApproximate⟩

/-! ## The run -/

theorem Settings.reduce_of_consistent {d : Reduction names.length} (settings : Settings)
    (hreduce : m.reduce = .ok d) (hcons : d.isContradictory = false) :
    settings.reduce m = .ok (d, false) := by
  have hclass : d.classify ≠ .inconsistent := by
    rw [ne_eq, Reduction.classify_eq_inconsistent_iff, hcons]
    exact Bool.false_ne_true
  simp only [Settings.reduce, hreduce, Except.mapError, bind, Except.bind, if_neg hclass]
  rfl

theorem Settings.reduce_of_contradictory {d r : Reduction names.length} (settings : Settings)
    (hreduce : m.reduce = .ok d) (hcons : d.isContradictory = true)
    (hleast : m.leastSquares = .ok r) :
    settings.reduce m = if settings.leastSquares = false then
      .error (.error (.unsolvable .inconsistent)) else .ok (r, true) := by
  have hclass := Reduction.classify_eq_inconsistent_iff.mpr hcons
  simp only [Settings.reduce, hreduce, Except.mapError, bind, Except.bind, if_pos hclass, hleast]
  cases settings.leastSquares <;> rfl

theorem solveMatrix_of_reduce {settings : Settings} {r : Reduction names.length}
    {isApproximate : Bool} {values : List Value}
    (hreduce : settings.reduce m = .ok (r, isApproximate)) (hcons : r.isContradictory = false)
    (hvalues : r.backSubstitute names = .ok values) :
    solveMatrix settings names m =
      if settings.policy = .strict ∧ r.freeColumns ≠ [] then
        .error (.error (.unsolvable (.freeUnknowns (r.freeColumns.map names.get))))
      else .ok ⟨values, isApproximate⟩ := by
  have hclass : r.classify =
      if r.freeColumns.isEmpty then .unique else .underdetermined r.freeColumns := by
    rw [Reduction.classify, hcons]
    rfl
  simp only [solveMatrix, hreduce, bind, Except.bind, hvalues, hclass]
  cases hfree : r.freeColumns <;> cases hpolicy : settings.policy <;> simp <;> rfl

theorem exists_solved (m : AugmentedMatrix names.length) :
    ∃ isApproximate r values, Solved m isApproximate r values := by
  obtain ⟨d, hreduce, hd, hequiv⟩ := m.exists_reduce
  have hsolution : (∃ x : Fin names.length → Rat, ∀ row ∈ m.rows, row.gap x 1 = 0) ↔
      d.isContradictory = false := by
    rw [← hd.exists_solution_iff]
    exact exists_congr fun x => (hequiv.gap_iff x 1).symm
  cases hcons : d.isContradictory with
  | false =>
      obtain ⟨values, hrun, hvalues⟩ := exists_solvePivots hd.isEchelon
      refine ⟨false, d, values, hd, hcons, hequiv, ?_, hvalues, hrun, fun settings => ?_⟩
      · rw [hsolution, hcons]
        simp
      · have hexact : ¬ (false = true ∧ settings.leastSquares = false) :=
          fun h => Bool.false_ne_true h.1
        have hstart := settings.reduce_of_consistent hreduce hcons
        rw [if_neg hexact, solveMatrix_of_reduce hstart hcons hrun]
  | true =>
      obtain ⟨r, hnormal, hr, hequiv', hcons'⟩ := m.exists_reduce_normalEquations
      have hleast := AugmentedMatrix.leastSquares_of_reduce hnormal hcons'
      obtain ⟨values, hrun, hvalues⟩ := exists_solvePivots hr.isEchelon
      refine ⟨true, r, values, hr, hcons', hequiv', ?_, hvalues, hrun, fun settings => ?_⟩
      · rw [hsolution, hcons]
        simp
      · have hstart := settings.reduce_of_contradictory hreduce hcons hleast
        by_cases hoff : settings.leastSquares = false
        · rw [if_pos hoff] at hstart
          rw [if_pos ⟨rfl, hoff⟩, solveMatrix, hstart]
          rfl
        · rw [if_neg hoff] at hstart
          rw [if_neg (fun h => hoff h.2), solveMatrix_of_reduce hstart hcons' hrun]

/-! ## What the values say -/

namespace Solved

variable {isApproximate : Bool} {r : Reduction names.length} {values : Fin names.length → Value}

theorem agree_iff (h : Solved m isApproximate r values) (x : String → Rat) :
    (∀ d, (values d).number x = x (names.get d)) ↔
      ∀ row ∈ solvedRows m isApproximate, row.gap (x ∘ names.get) 1 = 0 := by
  rw [h.substituted.agree_iff, ← h.isReduced.solution_iff h.consistent, h.equivalent.gap_iff]

theorem mem_names (h : Solved m isApproximate r values) (d : Fin names.length) :
    ∀ s ∈ (values d).freeUnknowns, s ∈ names :=
  h.substituted.mem_names d

/-- With the settings left as they are, every matrix is solved. -/
theorem solveMatrix_default (h : Solved m isApproximate r values) :
    solveMatrix {} names m = .ok ⟨List.ofFn values, isApproximate⟩ := by
  rw [h.solveMatrix_eq, if_neg (by simp), if_neg (by simp)]

theorem freeColumns_eq_nil_iff (h : Solved m isApproximate r values) :
    r.freeColumns = [] ↔
      ∀ x : Fin names.length → Rat, (∀ row ∈ m.rows, row.gap x 0 = 0) → x = 0 := by
  rw [← h.isReduced.only_zero_iff]
  apply forall_congr'
  intro x
  rw [h.equivalent.gap_iff, homogeneous_solvedRows_iff]

theorem isUnique_iff (h : Solved m isApproximate r values) :
    (Solution.isUnique ⟨List.ofFn values, isApproximate⟩) = true ↔ r.freeColumns = [] := by
  simp only [Solution.isUnique, List.all_eq_true, List.mem_ofFn, forall_exists_index,
    forall_apply_eq_imp_iff, Value.isResolved_iff]
  constructor
  · intro hresolved
    apply List.eq_nil_iff_forall_not_mem.mpr
    intro c hc
    have hself := h.substituted.free c (Reduction.mem_freeColumns.mp hc)
    apply hresolved c (names.get c)
    rw [hself, Value.freeUnknowns_free]
    exact List.mem_singleton_self _
  · intro hnil d s hs
    obtain ⟨c, -, hc, -⟩ := h.substituted.mentions d s hs
    exact List.not_mem_nil (hnil ▸ Reduction.mem_freeColumns.mpr hc)

end Solved

end LinearSystems
