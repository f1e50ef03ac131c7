import LinearSystems.Proofs.NamedColumns
import LinearSystems.Proofs.TableSums

/-!
# Equations in another order or turned round

The order of the equations decides which row becomes which pivot row, and exchanging the
sides of an equation changes all signs of its row. Neither changes what the rows say, nor
the normal equations, where rows only occur in sums of products of two of their entries. So
neither changes the answer, an approximate one included.

* `IsRearrangement`: the same rows in another order, some with all signs changed.
* `IsRearrangement.gap_iff`, `IsRearrangement.normalEquations_eq`: what does not change.
* `solveSides_eq_of_perm_of_exchanged`: equations that are permuted and turned round.
-/

namespace LinearSystems

/-- The equation with its sides exchanged. -/
def Sides.exchanged (s : Sides) : Sides := ⟨s.right, s.left⟩

/-- The solution of the system of equations that are given by their sides. -/
def solveSides (settings : Settings) (list : List Sides) : Except Failure Solution := do
  let system ← (LinearSystem.ofEquations (list.map Equation.ofSides)).mapError Failure.error
  system.solve settings

/-! ## Equations of two sides -/

namespace Equation

theorem coefficient_ofSides (s : Sides) (name : String) :
    (ofSides s).coefficient name = s.left.coefficient name - s.right.coefficient name := by
  unfold ofSides coefficient LinearForm.coefficient
  rw [Table.coefficient_merge, Table.coefficient_map_neg, sub_eq_add_neg]

theorem mem_unknowns_ofSides {s : Sides} {name : String} :
    name ∈ (ofSides s).unknowns ↔ name ∈ s.left.unknowns ∨ name ∈ s.right.unknowns := by
  unfold ofSides unknowns LinearForm.unknowns
  rw [Table.mem_keys_merge_iff, Table.keys_map]

theorem rowOf_exchanged (names : List String) (s : Sides) :
    LinearSystem.rowOf names (ofSides s.exchanged) =
      (LinearSystem.rowOf names (ofSides s)).scaled (-1) := by
  apply Row.ext_coefficient
  · intro c
    rw [Row.coefficient_scaled, LinearSystem.coefficient_rowOf, LinearSystem.coefficient_rowOf,
      coefficient_ofSides, coefficient_ofSides]
    simp only [Sides.exchanged]
    ring
  · rw [Row.constant_scaled]
    simp only [LinearSystem.rowOf, ofSides, Sides.exchanged]
    ring

end Equation

/-! ## Rows -/

section Rows

variable {n : Nat} {l l' : List (Row n)}

/-- The rows of `l'` are those of `l` in another order, some of them with all signs changed. -/
def IsRearrangement (l l' : List (Row n)) : Prop :=
  ∃ ordered, l.Perm ordered ∧
    List.Forall₂ (fun row row' => row' = row ∨ row' = row.scaled (-1)) ordered l'

theorem IsRearrangement.gap_iff (h : IsRearrangement l l') (x : Fin n → Rat) (t : Rat) :
    (∀ row ∈ l, row.gap x t = 0) ↔ ∀ row ∈ l', row.gap x t = 0 := by
  obtain ⟨ordered, hperm, hsigns⟩ := h
  rw [RowEquivalent.of_perm hperm |>.gap_iff x t]
  clear hperm
  induction hsigns with
  | nil => rfl
  | @cons row row' _ _ hrow _ ih =>
      have hgap : row.gap x t = 0 ↔ row'.gap x t = 0 := by
        rcases hrow with rfl | rfl
        · rfl
        · rw [Row.gap_scaled, mul_neg_one, neg_eq_zero]
      rw [List.forall_mem_cons, List.forall_mem_cons, hgap, ih]

/-- Sums over the rows do not change, if the terms do not see the signs of a row. -/
theorem IsRearrangement.sum_map_eq (h : IsRearrangement l l') {f : Row n → Rat}
    (hf : ∀ row, f (row.scaled (-1)) = f row) : (l.map f).sum = (l'.map f).sum := by
  obtain ⟨ordered, hperm, hsigns⟩ := h
  rw [(hperm.map f).sum_eq]
  clear hperm
  induction hsigns with
  | nil => rfl
  | @cons row row' _ _ hrow _ ih =>
      have hterm : f row' = f row := by
        rcases hrow with rfl | rfl
        · rfl
        · exact hf row
      rw [List.map_cons, List.map_cons, List.sum_cons, List.sum_cons, hterm, ih]

theorem IsRearrangement.normalEquations_eq {m m' : AugmentedMatrix n}
    (h : IsRearrangement m.rows m'.rows) : m.normalEquations = m'.normalEquations := by
  have hcoefficients : ∀ i j : Fin n,
      (m.rows.map fun r => r.coefficient i * r.coefficient j).sum =
        (m'.rows.map fun r => r.coefficient i * r.coefficient j).sum := by
    intro i j
    apply h.sum_map_eq
    intro row
    rw [Row.coefficient_scaled, Row.coefficient_scaled]
    ring
  have hconstant : ∀ i : Fin n,
      (m.rows.map fun r => r.coefficient i * r.constant).sum =
        (m'.rows.map fun r => r.coefficient i * r.constant).sum := by
    intro i
    apply h.sum_map_eq
    intro row
    rw [Row.coefficient_scaled, Row.constant_scaled]
    ring
  simp only [AugmentedMatrix.normalEquations, hcoefficients, hconstant]

theorem IsRearrangement.solveMatrix_eq {names : List String} {m m' : AugmentedMatrix names.length}
    (h : IsRearrangement m.rows m'.rows) (settings : Settings) :
    solveMatrix settings names m = solveMatrix settings names m' := by
  obtain ⟨isApproximate, r, values, hm⟩ := exists_solved m
  obtain ⟨isApproximate', r', values', hm'⟩ := exists_solved m'
  obtain rfl : isApproximate = isApproximate' := by
    rw [Bool.eq_iff_iff, hm.approximate_iff, hm'.approximate_iff]
    simp only [h.gap_iff]
  apply hm.solveMatrix_congr hm'
  intro x
  cases isApproximate with
  | false => exact h.gap_iff x 1
  | true =>
      rw [solvedRows, solvedRows, if_pos rfl, if_pos rfl, h.normalEquations_eq]

end Rows

/-! ## Systems -/

section Systems

variable {es es' : List Equation}

/-- Lists of equations make up systems that are solved alike, if they have the same unknowns
and their matrices are solved alike. -/
theorem LinearSystem.solve_ofEquations_congr (hnil : es = [] ↔ es' = [])
    (hunknowns : unknownsOf es = unknownsOf es') {settings : Settings}
    (hsolve : ∀ names, solveMatrix settings names (matrixOver names es) =
      solveMatrix settings names (matrixOver names es')) :
    ((ofEquations es).mapError Failure.error >>= fun s => s.solve settings) =
      (ofEquations es').mapError Failure.error >>= fun s => s.solve settings := by
  cases hsystem : ofEquations es with
  | error error =>
      have hother : ofEquations es' = .error error := by
        rw [ofEquations_eq_error_iff, ne_eq, ← hnil, ← hunknowns]
        exact ofEquations_eq_error_iff.mp hsystem
      rw [hother]
  | ok s =>
      obtain rfl := ofEquations_eq_ok_iff.mp hsystem
      have hne : es' ≠ [] := mt hnil.mpr s.equations_ne_nil
      have hnames : unknownsOf es' ≠ [] := hunknowns ▸ s.unknowns_ne_nil
      have hother : ofEquations es' = .ok ⟨es', hne, hnames⟩ := ofEquations_eq_ok_iff.mpr rfl
      have hleft := solve_eq_solveMatrix (s := s) rfl settings
      have hright := solve_eq_solveMatrix (s := ⟨es', hne, hnames⟩) hunknowns.symm settings
      rw [hother]
      exact hleft.trans ((hsolve _).trans hright.symm)

end Systems

/-! ## Equations in another order and turned round -/

section Turned

variable {list ordered turned : List Sides}

theorem exists_mem_unknowns_turned_iff
    (hturned : List.Forall₂ (fun s s' : Sides => s' = s ∨ s' = s.exchanged) ordered turned)
    (name : String) : (∃ s ∈ ordered, name ∈ (Equation.ofSides s).unknowns) ↔
      ∃ s ∈ turned, name ∈ (Equation.ofSides s).unknowns := by
  induction hturned with
  | nil => rfl
  | @cons s s' _ _ hs _ ih =>
      have hhead :
          name ∈ (Equation.ofSides s).unknowns ↔ name ∈ (Equation.ofSides s').unknowns := by
        rcases hs with rfl | rfl
        · rfl
        · rw [Equation.mem_unknowns_ofSides, Equation.mem_unknowns_ofSides]
          exact or_comm
      simp only [List.mem_cons, exists_eq_or_imp, hhead, ih]

theorem isRearrangement_turned (hperm : list.Perm ordered)
    (hturned : List.Forall₂ (fun s s' : Sides => s' = s ∨ s' = s.exchanged) ordered turned)
    (names : List String) :
    IsRearrangement (LinearSystem.matrixOver names (list.map Equation.ofSides)).rows
      (LinearSystem.matrixOver names (turned.map Equation.ofSides)).rows := by
  refine ⟨(ordered.map Equation.ofSides).map (LinearSystem.rowOf names), ?_, ?_⟩
  · exact (hperm.map _).map _
  · simp only [LinearSystem.matrixOver, List.map_map, List.forall₂_map_left_iff,
      List.forall₂_map_right_iff, Function.comp_apply]
    apply hturned.imp
    rintro s s' (rfl | rfl)
    · exact Or.inl rfl
    · exact Or.inr (Equation.rowOf_exchanged names s)

/-- **Order and orientation do not matter.** Equations that are put into another order and
then have the sides of some of them exchanged are solved alike, whatever the settings. -/
theorem solveSides_eq_of_perm_of_exchanged (hperm : list.Perm ordered)
    (hturned : List.Forall₂ (fun s s' : Sides => s' = s ∨ s' = s.exchanged) ordered turned)
    (settings : Settings) : solveSides settings list = solveSides settings turned := by
  apply LinearSystem.solve_ofEquations_congr
  · rw [List.map_eq_nil_iff, List.map_eq_nil_iff, ← List.length_eq_zero_iff,
      ← List.length_eq_zero_iff, hperm.length_eq, hturned.length_eq]
  · apply sortedKeys_eq
    intro name
    simp only [List.mem_flatMap, List.mem_map, exists_exists_and_eq_and, hperm.mem_iff]
    exact exists_mem_unknowns_turned_iff hturned name
  · intro names
    exact (isRearrangement_turned hperm hturned names).solveMatrix_eq settings

end Turned

/-- The sides of `x + y = 1`, `x = 2 - y` and `z = 4`, which contradict each other. -/
def clashingSides : List Sides :=
  [⟨⟨⟨[("x", 1), ("y", 1)], by decide⟩, 0⟩, ⟨∅, 1⟩⟩,
    ⟨⟨⟨[("x", 1)], by decide⟩, 0⟩, ⟨⟨[("y", -1)], by decide⟩, 2⟩⟩,
    ⟨⟨⟨[("z", 1)], by decide⟩, 0⟩, ⟨∅, 4⟩⟩]

/-- The same equations from the last one on, with the middle one turned round. -/
def clashingSidesTurned : List Sides :=
  [⟨⟨⟨[("z", 1)], by decide⟩, 0⟩, ⟨∅, 4⟩⟩,
    ⟨⟨⟨[("y", -1)], by decide⟩, 2⟩, ⟨⟨[("x", 1)], by decide⟩, 0⟩⟩,
    ⟨⟨⟨[("x", 1), ("y", 1)], by decide⟩, 0⟩, ⟨∅, 1⟩⟩]

theorem solveSides_eq_of_perm_of_exchanged_clashing :
    clashingSides.Perm clashingSides.reverse ∧
      List.Forall₂ (fun s s' : Sides => s' = s ∨ s' = s.exchanged) clashingSides.reverse
        clashingSidesTurned ∧
      solveSides {} clashingSides = solveSides {} clashingSidesTurned := by
  have hperm : clashingSides.Perm clashingSides.reverse := (List.reverse_perm _).symm
  have hturned : List.Forall₂ (fun s s' : Sides => s' = s ∨ s' = s.exchanged)
      clashingSides.reverse clashingSidesTurned :=
    .cons (.inl rfl) (.cons (.inr rfl) (.cons (.inl rfl) .nil))
  exact ⟨hperm, hturned, solveSides_eq_of_perm_of_exchanged hperm hturned {}⟩

end LinearSystems
