import LinearSystems.Proofs.FreeUnknowns
import LinearSystems.Proofs.SolutionSets

/-!
# Solutions are triangular

A solution has one value for each unknown, in the order of the names. Whether a value is that of
a free unknown is told from its terms alone, and still it is told rightly: the value of an
unknown with a pivot never mentions that unknown, since the unknowns that are mentioned have no
pivots. So the unknowns with a pivot are given in terms of free unknowns further to the right,
which are themselves values of the solution.

* `Solution.IsTriangular`: the shape of a solution.
* `Solved.isTriangular`: what was solved has this shape, exact or not.
* `LinearSystem.solve_isTriangular`: every solution of a system has it.
-/

namespace LinearSystems

/-- The values are those of the given names, in strict order, and each of them is the unknown
itself or is given in terms of free unknowns that come later. -/
structure Solution.IsTriangular (s : Solution) (names : List String) : Prop where
  map_name : s.values.map Value.name = names
  sorted : names.Pairwise (fun a b => Key.before a b = true)
  isFree_or_later : ∀ v ∈ s.values, v.isFree = true ∨
    ∀ name ∈ v.freeUnknowns, name ∈ s.freeUnknowns ∧ Key.before v.name name = true
  not_mem_self : ∀ v ∈ s.values, v.isFree = false → v.name ∉ v.freeUnknowns
  isUnique_iff : s.isUnique = true ↔ s.freeUnknowns = []

namespace Solved

variable {names : List String} {m : AugmentedMatrix names.length} {isApproximate : Bool}
  {r : Reduction names.length} {values : Fin names.length → Value}

/-- An unknown that is not free is given in terms of free unknowns with later names. -/
theorem before_of_mem_freeUnknowns (h : Solved m isApproximate r values)
    (hsorted : names.Pairwise (fun a b => Key.before a b = true)) {d : Fin names.length}
    (hd : d ∈ r.pivotColumns) {name : String} (hname : name ∈ (values d).freeUnknowns) :
    name ∈ Solution.freeUnknowns ⟨List.ofFn values, isApproximate⟩ ∧
      Key.before (values d).name name = true := by
  obtain ⟨c, hle, hc, rfl⟩ := h.substituted.mentions d name hname
  have hne : d ≠ c := by
    rintro rfl
    exact hc hd
  have hlt : d < c := lt_of_le_of_ne hle hne
  refine ⟨(h.mem_freeUnknowns_iff (hsorted.imp Key.ne_of_before)).mpr ⟨c, hc, rfl⟩, ?_⟩
  rw [h.substituted.name d]
  exact hsorted.rel_get_of_lt hlt

theorem isTriangular (h : Solved m isApproximate r values)
    (hsorted : names.Pairwise (fun a b => Key.before a b = true)) :
    Solution.IsTriangular ⟨List.ofFn values, isApproximate⟩ names := by
  have hnodup : names.Nodup := hsorted.imp Key.ne_of_before
  have hpivot : ∀ d, (values d).isFree = false → d ∈ r.pivotColumns := by
    intro d hd
    by_contra hnot
    rw [(h.isFree_iff hnodup d).mpr hnot] at hd
    cases hd
  constructor
  · exact h.substituted.map_name
  · exact hsorted
  · intro v hv
    obtain ⟨d, rfl⟩ := List.mem_ofFn.mp hv
    cases hfree : (values d).isFree with
    | true => exact Or.inl rfl
    | false =>
        exact Or.inr fun name hname => h.before_of_mem_freeUnknowns hsorted (hpivot d hfree) hname
  · intro v hv hfree
    obtain ⟨d, rfl⟩ := List.mem_ofFn.mp hv
    rw [h.substituted.name d]
    exact h.not_mem_freeUnknowns hnodup (hpivot d hfree) d
  · rw [h.isUnique_iff, h.freeUnknowns_eq hnodup, List.map_eq_nil_iff]

end Solved

namespace LinearSystem

/-- **Solutions are triangular.** Whatever the settings, and whether it is exact or not, a
solution has a value for each unknown of the system, in the order of the names. A value is the
unknown itself or is given in terms of free unknowns of the solution that come after it, and
all values are numbers just if no unknown is free. -/
theorem solve_isTriangular {settings : Settings} {s : LinearSystem} {solution : Solution}
    (hsolve : s.solve settings = .ok solution) : solution.IsTriangular s.unknowns := by
  obtain ⟨isApproximate, r, values, h⟩ := exists_solved s.matrix
  obtain rfl := h.eq_of_solve hsolve
  exact h.isTriangular s.unknowns_sorted

theorem solve_isTriangular_threePlanes :
    threePlanes.solve {} = .ok closestLine ∧ closestLine.IsTriangular threePlanes.unknowns ∧
      closestLine.freeUnknowns = ["y"] := by
  have hsolve : threePlanes.solve {} = .ok closestLine := by decide +kernel
  exact ⟨hsolve, solve_isTriangular hsolve, by decide +kernel⟩

end LinearSystem

end LinearSystems
