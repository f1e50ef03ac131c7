import LinearSystems.Proofs.ValueEquations

/-!
# Matrices that are made of sides

Equations are made of two sides each, and a system of them has a matrix with a row for each
equation and a column for each unknown. Nothing is lost on the way: the columns are the unknowns
of all sides, those included that cancel, and each row says what the two sides say.

* `LinearForm.evaluate_eq_some`, `Equation.residual_ofSides`: sides and equations as numbers.
* `unknownsOf_ofSides_eq_nil_iff`: when there are no columns.
* `Row.Says`, `Row.says_rowOf`: what a row says, and that it says its equation.
* `LinearSystem.ofEquations_says_sides`: the system of a list of sides.
-/

namespace LinearSystems

/-! ## Numbers of sides -/

theorem LinearForm.evaluate_eq_some {σ : String → Option Rat} {x : String → Rat} {f : LinearForm}
    (h : ∀ name ∈ f.unknowns, σ name = some (x name)) : f.evaluate σ = some (f.number x) := by
  rw [evaluate, Table.evaluate_eq_some h]
  rfl

theorem Equation.residual_ofSides {σ : String → Option Rat} {x : String → Rat} {s : Sides}
    (h : ∀ name ∈ (ofSides s).unknowns, σ name = some (x name)) :
    (ofSides s).residual σ = some (s.left.number x - s.right.number x) := by
  have hvalue : (ofSides s).value = s.right.constant - s.left.constant := rfl
  rw [residual, Table.evaluate_eq_some h, Option.map_some, total_ofSides, hvalue,
    LinearForm.number, LinearForm.number]
  congr 1
  ring

/-! ## Unknowns of sides -/

/-- Neither side mentions an unknown. -/
def Sides.HasNoUnknown (s : Sides) : Prop := s.left.unknowns = [] ∧ s.right.unknowns = []

theorem mem_unknownsOf_ofSides {list : List Sides} {name : String} :
    name ∈ unknownsOf (list.map Equation.ofSides) ↔
      ∃ s ∈ list, name ∈ s.left.unknowns ∨ name ∈ s.right.unknowns := by
  simp only [unknownsOf, mem_sortedKeys, List.mem_flatMap, List.mem_map, exists_exists_and_eq_and,
    Equation.mem_unknowns_ofSides]

theorem unknownsOf_ofSides_eq_nil_iff {list : List Sides} :
    unknownsOf (list.map Equation.ofSides) = [] ↔ ∀ s ∈ list, s.HasNoUnknown := by
  rw [List.eq_nil_iff_forall_not_mem]
  simp only [mem_unknownsOf_ofSides, Sides.HasNoUnknown, List.eq_nil_iff_forall_not_mem]
  constructor
  · intro h s hs
    exact ⟨fun name hname => h name ⟨s, hs, Or.inl hname⟩,
      fun name hname => h name ⟨s, hs, Or.inr hname⟩⟩
  · rintro h name ⟨s, hs, hname | hname⟩
    · exact (h s hs).1 name hname
    · exact (h s hs).2 name hname

/-! ## Rows -/

/-- What the row says of numbers for the unknowns is what the sides say: the coefficients times the
numbers, less the constant, are the residual of the equation, and that is the left side less the
right side. -/
def Row.Says {names : List String} (row : Row names.length) (s : Sides) : Prop :=
  ∀ (σ : String → Option Rat) (x : String → Rat), (∀ name ∈ names, σ name = some (x name)) →
    ∃ left right, s.left.evaluate σ = some left ∧ s.right.evaluate σ = some right ∧
      (Equation.ofSides s).residual σ = some (left - right) ∧
      (∑ j, row.coefficient j * x (names.get j)) - row.constant = left - right

theorem Row.says_rowOf {names : List String} (hnodup : names.Nodup) {s : Sides}
    (hmem : ∀ name ∈ (Equation.ofSides s).unknowns, name ∈ names) :
    (LinearSystem.rowOf names (Equation.ofSides s)).Says s := by
  intro σ x hσ
  have hown : ∀ name ∈ (Equation.ofSides s).unknowns, σ name = some (x name) :=
    fun name hname => hσ name (hmem name hname)
  refine ⟨s.left.number x, s.right.number x, ?_, ?_, Equation.residual_ofSides hown, ?_⟩
  · exact LinearForm.evaluate_eq_some fun name hname =>
      hown name (Equation.mem_unknowns_ofSides.mpr (Or.inl hname))
  · exact LinearForm.evaluate_eq_some fun name hname =>
      hown name (Equation.mem_unknowns_ofSides.mpr (Or.inr hname))
  · rw [← Equation.gap_rowOf_ofSides hnodup hmem x, Row.gap, mul_one]
    rfl

/-! ## Systems -/

namespace LinearSystem

/-- **The matrix says what the sides say.** Equations that are given by their sides make up a
system unless there are none or no side mentions an unknown. Its unknowns are those of all sides,
also where they cancel, in strict order, and its rows are one for each equation, each of which
says what the equation says. -/
theorem ofEquations_says_sides (list : List Sides) :
    ((∃ cause, ofEquations (list.map Equation.ofSides) = .error (.dimension cause)) ↔
      list = [] ∨ ∀ s ∈ list, s.HasNoUnknown) ∧
    (¬ (list = [] ∨ ∀ s ∈ list, s.HasNoUnknown) →
      ∃ system, ofEquations (list.map Equation.ofSides) = .ok system ∧
        system.equations = list.map Equation.ofSides ∧
        system.unknowns.Pairwise (fun a b => Key.before a b = true) ∧
        (∀ name, name ∈ system.unknowns ↔
          ∃ s ∈ list, name ∈ s.left.unknowns ∨ name ∈ s.right.unknowns) ∧
        List.Forall₂ (fun s (row : Row system.unknowns.length) => row.Says s) list
          system.matrix.rows) := by
  have hnil : list.map Equation.ofSides = [] ↔ list = [] := List.map_eq_nil_iff
  rw [← hnil, ← unknownsOf_ofSides_eq_nil_iff]
  refine ⟨?_, fun hsome => ?_⟩
  · simp only [ofEquations_eq_error_iff]
    constructor
    · rintro ⟨cause, ⟨hnil, -⟩ | ⟨-, hnone, -⟩⟩
      · exact Or.inl hnil
      · exact Or.inr hnone
    · intro h
      by_cases hnil : list.map Equation.ofSides = []
      · exact ⟨_, Or.inl ⟨hnil, rfl⟩⟩
      · exact ⟨_, Or.inr ⟨hnil, h.resolve_left hnil, rfl⟩⟩
  · rw [not_or] at hsome
    let system : LinearSystem := ⟨list.map Equation.ofSides, hsome.1, hsome.2⟩
    refine ⟨system, ofEquations_eq_ok_iff.mpr rfl, rfl, system.unknowns_sorted,
      fun name => mem_unknownsOf_ofSides, ?_⟩
    rw [show system.matrix.rows = _ from List.map_map .., List.forall₂_map_right_iff,
      List.forall₂_same]
    intro s hs
    apply Row.says_rowOf system.nodup_unknowns
    intro name hname
    exact mem_unknowns.mpr ⟨_, List.mem_map_of_mem hs, hname⟩

end LinearSystem

end LinearSystems
