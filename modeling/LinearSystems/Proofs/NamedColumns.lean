import LinearSystems.Proofs.Assignments
import LinearSystems.Proofs.CanonicalForm

/-!
# Systems over the same unknowns

The matrix of a system has the unknowns of the system as its columns. To compare two systems
with the same unknowns, both matrices are taken over one list of names, `matrixOver names`.

The equations of a consistent system may be scaled, combined or repeated: as long as the
system keeps its unknowns and its solutions, it is solved to the same values, and refused for
the same reason.

* `solve_eq_solveMatrix`: solving a system is solving its matrix over its unknowns.
* `solveEquations_eq_solveMatrix`: the same from a list of equations.
* `isSolvedBy_assignmentOf_iff`, `isConsistent_iff_exists`: solutions, by that matrix.
* `sortedKeys_eq_of_sorted`, `sortedKeys_eq`: the sorted names of a list are told by which names
  it has.
* `solve_eq_of_same_solutions`: systems with the same unknowns and the same solutions.
-/

namespace LinearSystems

theorem sortedKeys_eq_of_sorted {κ : Type} [Key κ] [DecidableEq κ] {l sorted : List κ}
    (hsorted : sorted.Pairwise (fun a b => Key.before a b = true)) (h : ∀ k, k ∈ l ↔ k ∈ sorted) :
    sortedKeys l = sorted := by
  have hirrefl : Std.Irrefl fun a b : κ => Key.before a b = true :=
    ⟨fun a => by rw [Key.before_irrefl]; exact Bool.false_ne_true⟩
  have hantisymm : Std.Antisymm fun a b : κ => Key.before a b = true :=
    ⟨fun a b hab hba => by rw [Key.before_asymm hab] at hba; cases hba⟩
  apply (sortedKeys_sorted l).eq_of_mem_iff hsorted
  intro k
  rw [mem_sortedKeys, h]

theorem sortedKeys_eq {κ : Type} [Key κ] [DecidableEq κ] {l l' : List κ}
    (h : ∀ k, k ∈ l ↔ k ∈ l') : sortedKeys l = sortedKeys l' :=
  sortedKeys_eq_of_sorted (sortedKeys_sorted l') fun k => (h k).trans mem_sortedKeys.symm

namespace LinearSystem

/-- The matrix of equations over a list of names. -/
def matrixOver (names : List String) (equations : List Equation) : AugmentedMatrix names.length :=
  ⟨equations.map (rowOf names)⟩

theorem coefficient_rowOf (names : List String) (e : Equation) (c : Fin names.length) :
    (rowOf names e).coefficient c = e.coefficient (names.get c) := by
  simp [rowOf, Row.coefficient]

theorem mem_matrixOver {names : List String} {equations : List Equation}
    {row : Row names.length} :
    row ∈ (matrixOver names equations).rows ↔ ∃ e ∈ equations, rowOf names e = row :=
  List.mem_map

/-- The assignment that gives the names the numbers in their columns. -/
def assignmentOf (names : List String) (x : Fin names.length → Rat) (name : String) : Option Rat :=
  if h : name ∈ names then some (x ⟨names.idxOf name, List.idxOf_lt_length_of_mem h⟩) else none

variable {s : LinearSystem} {names : List String}

theorem solve_eq_solveMatrix (h : s.unknowns = names) (settings : Settings) :
    s.solve settings = solveMatrix settings names (matrixOver names s.equations) := by
  subst h
  rfl

/-- The solution of the system of a list of equations. -/
def solveEquations (settings : Settings) (equations : List Equation) :
    Except Failure Solution := do
  let system ← (ofEquations equations).mapError Failure.error
  system.solve settings

theorem solveEquations_eq_solveMatrix {equations : List Equation} (hne : equations ≠ [])
    (h : unknownsOf equations = names) (hnames : names ≠ []) (settings : Settings) :
    solveEquations settings equations =
      solveMatrix settings names (matrixOver names equations) := by
  subst h
  have hsystem : ofEquations equations = .ok ⟨equations, hne, hnames⟩ :=
    ofEquations_eq_ok_iff.mpr rfl
  rw [solveEquations, hsystem]
  rfl

theorem assigned_assignmentOf (h : s.unknowns = names) (x : Fin names.length → Rat) :
    s.Assigned (assignmentOf names x) := by
  subst h
  exact assigned_ofPoint x

theorem isSolvedBy_assignmentOf_iff (h : s.unknowns = names) (x : Fin names.length → Rat) :
    s.IsSolvedBy (assignmentOf names x) ↔
      ∀ row ∈ (matrixOver names s.equations).rows, row.gap x 1 = 0 := by
  subst h
  have hsolved := isSolvedBy_iff (assigned_ofPoint x)
  rwa [point_ofPoint] at hsolved

theorem isConsistent_iff_exists (h : s.unknowns = names) :
    s.IsConsistent ↔ ∃ x : Fin names.length → Rat,
      ∀ row ∈ (matrixOver names s.equations).rows, row.gap x 1 = 0 := by
  subst h
  exact s.isConsistent_iff

/-! ## The exact answer is canonical -/

/-- **The exact answer is canonical.** Two consistent systems with the same unknowns and the
same solutions are solved alike, whatever the settings. -/
theorem solve_eq_of_same_solutions {s s' : LinearSystem} (hunknowns : s.unknowns = s'.unknowns)
    (hcons : s.IsConsistent) (hcons' : s'.IsConsistent)
    (hsame : ∀ σ, s.Assigned σ → (s.IsSolvedBy σ ↔ s'.IsSolvedBy σ)) (settings : Settings) :
    s.solve settings = s'.solve settings := by
  obtain ⟨names, hnames⟩ : ∃ names, s'.unknowns = names := ⟨_, rfl⟩
  have hnames' := hunknowns.trans hnames
  rw [solve_eq_solveMatrix hnames', solve_eq_solveMatrix hnames]
  obtain ⟨isApproximate, r, values, h⟩ := exists_solved (matrixOver names s.equations)
  obtain ⟨isApproximate', r', values', h'⟩ := exists_solved (matrixOver names s'.equations)
  -- Neither system is approximated, so that both times the rows themselves were reduced.
  obtain rfl : isApproximate = false := by
    apply Bool.eq_false_iff.mpr
    intro htrue
    exact h.approximate_iff.mp htrue ((isConsistent_iff_exists hnames').mp hcons)
  obtain rfl : isApproximate' = false := by
    apply Bool.eq_false_iff.mpr
    intro htrue
    exact h'.approximate_iff.mp htrue ((isConsistent_iff_exists hnames).mp hcons')
  apply h.solveMatrix_congr h'
  intro x
  have hiff := hsame _ (assigned_assignmentOf hnames' x)
  rwa [isSolvedBy_assignmentOf_iff hnames', isSolvedBy_assignmentOf_iff hnames] at hiff

/-- The planes `x - y + z = 1` and `x + y - z = 2`. -/
def crossingPlanes : LinearSystem where
  equations := [⟨⟨[("x", 1), ("y", -1), ("z", 1)], by decide⟩, 1⟩,
    ⟨⟨[("x", 1), ("y", 1), ("z", -1)], by decide⟩, 2⟩]
  equations_ne_nil := by decide
  unknowns_ne_nil := by decide +kernel

/-- Three planes, `3x - y + z = 4`, `2x = 3` and `4z - 4y = -2`, that meet in the same line. -/
def bundledPlanes : LinearSystem where
  equations := [⟨⟨[("x", 3), ("y", -1), ("z", 1)], by decide⟩, 4⟩,
    ⟨⟨[("x", 2)], by decide⟩, 3⟩, ⟨⟨[("y", -4), ("z", 4)], by decide⟩, -2⟩]
  equations_ne_nil := by decide
  unknowns_ne_nil := by decide +kernel

/-- A point of the line. -/
def onCommonLine (name : String) : Option Rat :=
  some (if name = "x" then 3 / 2 else if name = "y" then 1 / 2 else 0)

theorem isSolvedBy_crossingPlanes_iff (σ : String → Option Rat) (hσ : crossingPlanes.Assigned σ) :
    crossingPlanes.IsSolvedBy σ ↔ bundledPlanes.IsSolvedBy σ := by
  obtain ⟨x, hx⟩ := hσ "x" (by decide +kernel)
  obtain ⟨y, hy⟩ := hσ "y" (by decide +kernel)
  obtain ⟨z, hz⟩ := hσ "z" (by decide +kernel)
  simp only [IsSolvedBy, crossingPlanes, bundledPlanes, Equation.residual, Table.evaluate,
    Table.evaluate.go, hx, hy, hz, List.forall_mem_cons, List.not_mem_nil, false_implies,
    implies_true, and_true, Option.bind_eq_bind, Option.bind_some, Option.pure_def,
    Option.map_some, Option.some.injEq]
  constructor
  · rintro ⟨hfirst, hsecond⟩
    refine ⟨?_, ?_, ?_⟩ <;> linarith
  · rintro ⟨hfirst, hsecond, hthird⟩
    refine ⟨?_, ?_⟩ <;> linarith

theorem solve_eq_of_same_solutions_planes :
    crossingPlanes.unknowns = bundledPlanes.unknowns ∧ crossingPlanes.IsConsistent ∧
      bundledPlanes.IsConsistent ∧
      (∀ σ, crossingPlanes.Assigned σ →
        (crossingPlanes.IsSolvedBy σ ↔ bundledPlanes.IsSolvedBy σ)) ∧
      crossingPlanes.solve { policy := .strict } = bundledPlanes.solve { policy := .strict } := by
  have hunknowns : crossingPlanes.unknowns = bundledPlanes.unknowns := by decide +kernel
  have hline : ∀ e ∈ crossingPlanes.equations, e.residual onCommonLine = some 0 := by
    decide +kernel
  have hline' : ∀ e ∈ bundledPlanes.equations, e.residual onCommonLine = some 0 := by
    decide +kernel
  exact ⟨hunknowns, ⟨_, hline⟩, ⟨_, hline'⟩, isSolvedBy_crossingPlanes_iff,
    solve_eq_of_same_solutions hunknowns ⟨_, hline⟩ ⟨_, hline'⟩ isSolvedBy_crossingPlanes_iff _⟩

end LinearSystem

end LinearSystems
