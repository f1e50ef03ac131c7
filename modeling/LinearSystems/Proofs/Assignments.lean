import LinearSystems.LinearSystem
import LinearSystems.Proofs.NormalEquations
import LinearSystems.Proofs.TableTotals

/-!
# Assignments

An assignment gives some names a number. What it means that an assignment solves a
system, or comes closest to it, is said here by the residuals of the equations alone. The
rest of the module says the same by the matrix of the system: an assignment of all
unknowns is a point, each equation a row, and its residual the gap of the row.

* `IsSolvedBy`, `IsConsistent`, `HasFullRank`, `IsLeastAt`: systems and assignments.
* `residual_eq`: the residual of an equation is the gap of its row.
* `isSolvedBy_iff`, `isConsistent_iff`, `hasFullRank_iff`, `isLeastAt_iff`: the same notions,
  said by the matrix.
-/

namespace LinearSystems.LinearSystem

/-! ## Solutions of a system -/

/-- All unknowns of the system have a number. -/
def Assigned (s : LinearSystem) (σ : String → Option Rat) : Prop :=
  ∀ name ∈ s.unknowns, ∃ q, σ name = some q

def IsSolvedBy (s : LinearSystem) (σ : String → Option Rat) : Prop :=
  ∀ e ∈ s.equations, e.residual σ = some 0

def IsConsistent (s : LinearSystem) : Prop := ∃ σ, s.IsSolvedBy σ

/-- Only the assignment of zeros makes the left-hand sides of all equations zero. -/
def HasFullRank (s : LinearSystem) : Prop :=
  ∀ σ, s.Assigned σ → (∀ e ∈ s.equations, e.coefficients.evaluate σ = some 0) →
    ∀ name ∈ s.unknowns, σ name = some 0

/-- The sum of the squared residuals, if all of them are numbers. -/
def squaredError (s : LinearSystem) (σ : String → Option Rat) : Option Rat :=
  (s.equations.mapM fun e : Equation => e.residual σ).map fun residuals =>
    (residuals.map (· ^ 2)).sum

/-- No assignment has a smaller sum of squared residuals. -/
def IsLeastAt (s : LinearSystem) (σ : String → Option Rat) : Prop :=
  ∀ τ, s.Assigned τ → ∃ least error,
    s.squaredError σ = some least ∧ s.squaredError τ = some error ∧ least ≤ error

variable {s : LinearSystem} {σ : String → Option Rat} {e : Equation}

/-! ## Unknowns and columns -/

theorem mem_unknowns {name : String} :
    name ∈ s.unknowns ↔ ∃ e ∈ s.equations, name ∈ e.unknowns := by
  rw [unknowns, unknownsOf, mem_sortedKeys, List.mem_flatMap]

theorem nodup_unknowns (s : LinearSystem) : s.unknowns.Nodup :=
  s.unknowns_sorted.imp Key.ne_of_before

theorem IsSolvedBy.assigned (h : s.IsSolvedBy σ) : s.Assigned σ := by
  intro name hname
  obtain ⟨e, he, hmem⟩ := mem_unknowns.mp hname
  obtain ⟨q, hq, -⟩ := Option.map_eq_some_iff.mp (h e he)
  exact Table.exists_of_evaluate_eq_some hq name hmem

/-- The numbers of an assignment, zero where it has none. -/
def numbers (σ : String → Option Rat) (name : String) : Rat := (σ name).getD 0

/-- The numbers of the unknowns, by column. -/
def point (s : LinearSystem) (σ : String → Option Rat) : Fin s.unknowns.length → Rat :=
  numbers σ ∘ s.unknowns.get

theorem Assigned.eq_some (h : s.Assigned σ) {name : String} (hname : name ∈ s.unknowns) :
    σ name = some (numbers σ name) := by
  obtain ⟨q, hq⟩ := h name hname
  rw [numbers, hq]
  rfl

/-- The assignment of the numbers in the columns. -/
def ofPoint (s : LinearSystem) (x : Fin s.unknowns.length → Rat) (name : String) : Option Rat :=
  if h : name ∈ s.unknowns then some (x ⟨s.unknowns.idxOf name, List.idxOf_lt_length_of_mem h⟩)
  else none

theorem assigned_ofPoint (x : Fin s.unknowns.length → Rat) : s.Assigned (s.ofPoint x) := by
  intro name hname
  exact ⟨_, dif_pos hname⟩

@[simp] theorem point_ofPoint (x : Fin s.unknowns.length → Rat) : s.point (s.ofPoint x) = x := by
  funext j
  have hmem : s.unknowns.get j ∈ s.unknowns := List.get_mem _ _
  have hindex : s.unknowns.idxOf (s.unknowns.get j) = j.val :=
    List.Nodup.idxOf_getElem s.nodup_unknowns j.val j.isLt
  simp only [point, Function.comp_apply, numbers, ofPoint, dif_pos hmem, Option.getD_some]
  exact congrArg x (Fin.ext hindex)

/-! ## Equations and rows -/

theorem gap_rowOf (names : List String) (e : Equation) (x : Fin names.length → Rat) (t : Rat) :
    (rowOf names e).gap x t = (∑ j, e.coefficient (names.get j) * x j) - e.value * t := by
  simp [Row.gap, rowOf, Row.coefficient]

theorem mem_matrix {r : Row s.unknowns.length} :
    r ∈ s.matrix.rows ↔ ∃ e ∈ s.equations, rowOf s.unknowns e = r := by
  simp [matrix]

theorem evaluate_coefficients_eq (hσ : s.Assigned σ) (he : e ∈ s.equations) :
    e.coefficients.evaluate σ =
      some (∑ j, e.coefficient (s.unknowns.get j) * s.point σ j) := by
  have hkeys : ∀ k ∈ e.coefficients.keys, k ∈ s.unknowns :=
    fun k hk => mem_unknowns.mpr ⟨e, he, hk⟩
  rw [Table.evaluate_eq_some fun k hk => hσ.eq_some (hkeys k hk),
    Table.total_eq_sum _ s.nodup_unknowns hkeys]
  rfl

theorem residual_eq (hσ : s.Assigned σ) (he : e ∈ s.equations) :
    e.residual σ = some ((rowOf s.unknowns e).gap (s.point σ) 1) := by
  rw [Equation.residual, evaluate_coefficients_eq hσ he, gap_rowOf, mul_one]
  rfl

/-! ## Systems and matrices -/

theorem isSolvedBy_iff (hσ : s.Assigned σ) :
    s.IsSolvedBy σ ↔ ∀ r ∈ s.matrix.rows, r.gap (s.point σ) 1 = 0 := by
  constructor
  · intro h r hr
    obtain ⟨e, he, rfl⟩ := mem_matrix.mp hr
    have hzero := h e he
    rw [residual_eq hσ he] at hzero
    exact Option.some.inj hzero
  · intro h e he
    rw [residual_eq hσ he, h _ (mem_matrix.mpr ⟨e, he, rfl⟩)]

theorem homogeneous_iff (hσ : s.Assigned σ) :
    (∀ e ∈ s.equations, e.coefficients.evaluate σ = some 0) ↔
      ∀ r ∈ s.matrix.rows, r.gap (s.point σ) 0 = 0 := by
  constructor
  · intro h r hr
    obtain ⟨e, he, rfl⟩ := mem_matrix.mp hr
    have hzero := h e he
    rw [evaluate_coefficients_eq hσ he] at hzero
    rw [gap_rowOf, mul_zero, sub_zero]
    exact Option.some.inj hzero
  · intro h e he
    have hzero := h _ (mem_matrix.mpr ⟨e, he, rfl⟩)
    rw [gap_rowOf, mul_zero, sub_zero] at hzero
    rw [evaluate_coefficients_eq hσ he, hzero]

theorem isConsistent_iff (s : LinearSystem) :
    s.IsConsistent ↔ ∃ x : Fin s.unknowns.length → Rat, ∀ r ∈ s.matrix.rows, r.gap x 1 = 0 := by
  constructor
  · rintro ⟨σ, hσ⟩
    exact ⟨s.point σ, (isSolvedBy_iff hσ.assigned).mp hσ⟩
  · rintro ⟨x, hx⟩
    refine ⟨s.ofPoint x, (isSolvedBy_iff (assigned_ofPoint x)).mpr ?_⟩
    rwa [point_ofPoint]

theorem hasFullRank_iff (s : LinearSystem) :
    s.HasFullRank ↔ ∀ x : Fin s.unknowns.length → Rat,
      (∀ r ∈ s.matrix.rows, r.gap x 0 = 0) → x = 0 := by
  constructor
  · intro h x hx
    have hassigned := assigned_ofPoint x
    have hzero := h _ hassigned ((homogeneous_iff hassigned).mpr (by rwa [point_ofPoint]))
    rw [← point_ofPoint x]
    funext j
    rw [point, Function.comp_apply, numbers, hzero _ (List.get_mem _ _)]
    rfl
  · intro h σ hσ hleft name hname
    have hzero := h _ ((homogeneous_iff hσ).mp hleft)
    obtain ⟨j, rfl⟩ := List.mem_iff_get.mp hname
    rw [hσ.eq_some hname]
    exact congrArg some (congrFun hzero j)

theorem mapM_residual (hσ : s.Assigned σ) {l : List Equation} (hl : ∀ e ∈ l, e ∈ s.equations) :
    (l.mapM fun e => e.residual σ) =
      some (l.map fun e => (rowOf s.unknowns e).gap (s.point σ) 1) := by
  induction l with
  | nil => rfl
  | cons e rest ih =>
      have hrest := ih fun e he => hl e (List.mem_cons_of_mem _ he)
      rw [List.mapM_cons, residual_eq hσ (hl e List.mem_cons_self), hrest]
      rfl

theorem squaredError_eq (hσ : s.Assigned σ) :
    s.squaredError σ = some (s.matrix.squaredGaps (s.point σ)) := by
  rw [squaredError, mapM_residual hσ fun _ he => he, Option.map_some,
    AugmentedMatrix.squaredGaps, matrix, List.map_map, List.map_map]
  rfl

theorem isLeastAt_iff (hσ : s.Assigned σ) :
    s.IsLeastAt σ ↔ ∀ y, s.matrix.squaredGaps (s.point σ) ≤ s.matrix.squaredGaps y := by
  constructor
  · intro h y
    obtain ⟨least, error, hleast, herror, hle⟩ := h _ (assigned_ofPoint y)
    rw [squaredError_eq hσ] at hleast
    rw [squaredError_eq (assigned_ofPoint y), point_ofPoint] at herror
    rwa [Option.some.inj hleast, Option.some.inj herror]
  · intro h τ hτ
    exact ⟨_, _, squaredError_eq hσ, squaredError_eq hτ, h _⟩

end LinearSystems.LinearSystem
