import LinearSystems.Proofs.EchelonForm
import LinearSystems.Proofs.SolutionSets

/-!
# Back-substitution on any echelon form

Reduction leaves ones as pivots and nothing above them, and back-substitution needs neither. It
solves the rows of every echelon form: each of them is divided by its pivot, and what it has in
later columns with a pivot is replaced by the values of these, which mention free unknowns only.
The rows without a pivot are not looked at. They may have any entries, and what was solved need
not be consistent with them.

* `IsRowEchelon`: the form, by places.
* `Reduction.isRowEchelon_iff`: the same, said of the pivots one by one.
* `Reduction.exists_backSubstitute_of_isRowEchelon`: the values, for all echelon forms.
-/

namespace LinearSystems

variable {n : Nat}

/-- A list of rows in echelon form, with the pivots of the first rows in the given columns: a pivot
is the first entry of its row other than zero. -/
structure IsRowEchelon (rows : List (Row n)) (pivots : List (Fin n)) : Prop where
  length_le : pivots.length ≤ rows.length
  sorted : pivots.Pairwise (· < ·)
  ne_zero : ∀ {i : Nat} {c : Fin n} {row : Row n}, pivots[i]? = some c → rows[i]? = some row →
    row.coefficient c ≠ 0
  left : ∀ {i : Nat} {c : Fin n} {row : Row n}, pivots[i]? = some c → rows[i]? = some row →
    ∀ d < c, row.coefficient d = 0

theorem Row.gap_eq_zero_iff {x : Fin n → Rat} {row : Row n} :
    row.gap x 1 = 0 ↔ ∑ c, row.coefficient c * x c = row.constant := by
  rw [gap, mul_one, sub_eq_zero]

namespace Reduction

theorem isRowEchelon_iff {r : Reduction n} :
    IsRowEchelon r.rows r.pivotColumns ↔ IsEchelon r.pivots := by
  constructor
  · intro h
    refine ⟨List.pairwise_map.mp h.sorted, fun p hp => ?_, fun p hp => ?_⟩
    · obtain ⟨i, hc, hrow⟩ := mem_pivots_iff.mp hp
      exact h.ne_zero hc hrow
    · obtain ⟨i, hc, hrow⟩ := mem_pivots_iff.mp hp
      exact h.left hc hrow
  · intro h
    refine ⟨by simp [rows, pivotColumns], List.pairwise_map.mpr h.sorted, ?_, ?_⟩
    · intro i c row hc hrow
      exact h.ne_zero ⟨c, row⟩ (mem_pivots_iff.mpr ⟨i, hc, hrow⟩)
    · intro i c row hc hrow
      exact h.left ⟨c, row⟩ (mem_pivots_iff.mpr ⟨i, hc, hrow⟩)

theorem take_rank_rows (r : Reduction n) : r.rows.take r.rank = r.pivots.map Pivot.row :=
  List.take_left' (List.length_map _)

/-- **Back-substitution solves any echelon form.** Whatever the pivots are, as long as they are not
zero, and whatever is above them and in the rows without one, there is a value for each column. The
values mention only names of columns without a pivot, and numbers for all names solve the rows
with a pivot if and only if they agree with every value. The names need not be distinct. -/
theorem exists_backSubstitute_of_isRowEchelon {names : List String}
    {r : Reduction names.length} (h : IsRowEchelon r.rows r.pivotColumns) :
    ∃ values, r.backSubstitute names = .ok values ∧ values.map Value.name = names ∧
      (∀ v ∈ values, ∀ name ∈ v.freeUnknowns, ∃ c, c ∉ r.pivotColumns ∧ names.get c = name) ∧
      ∀ (σ : String → Option Rat) (x : String → Rat), (∀ name ∈ names, σ name = some (x name)) →
        ((∀ row ∈ r.rows.take r.rank,
            ∑ c, row.coefficient c * x (names.get c) = row.constant) ↔
          ∀ v ∈ values, v.AgreesAt σ) := by
  obtain ⟨values, hrun, hvalues⟩ := exists_solvePivots (isRowEchelon_iff.mp h)
  refine ⟨List.ofFn values, hrun, hvalues.map_name, ?_, fun σ x hσ => ?_⟩
  · intro v hv name hname
    obtain ⟨d, rfl⟩ := List.mem_ofFn.mp hv
    obtain ⟨c, -, hc, rfl⟩ := hvalues.mentions d name hname
    exact ⟨c, hc, rfl⟩
  · rw [hvalues.agrees_iff hσ, hvalues.agree_iff, take_rank_rows, List.forall_mem_map]
    simp only [Row.gap_eq_zero_iff, Function.comp_apply]

/-- The names of four columns. -/
def slantedNames : List String := ["a", "b", "c", "d"]

/-- The rows `2a + 4b + c - 2d = 2` and `3c - 6d = 9`, with an entry above the second pivot, and
the row `5b = 1` without a pivot. -/
def slanted : Reduction slantedNames.length where
  pivots := [⟨(0 : Fin 4), ⟨#v[2, 4, 1, -2], 2⟩⟩, ⟨(2 : Fin 4), ⟨#v[0, 0, 3, -6], 9⟩⟩]
  rest := [⟨#v[0, 5, 0, 0], 1⟩]

/-- The values that solve the first two of them: `d` cancels in that of `a`. -/
def slantedValues : List Value :=
  [.resolved "a" (-1 / 2) + (Value.free "b").scaled (-2), .free "b",
    .resolved "c" 3 + (Value.free "d").scaled 2, .free "d"]

def onSlanted (name : String) : Rat :=
  if name = "a" then -5 / 2 else if name = "b" then 1 else if name = "c" then 7 else 2

theorem exists_backSubstitute_of_isRowEchelon_slanted :
    IsRowEchelon slanted.rows slanted.pivotColumns ∧
      slanted.backSubstitute slantedNames = .ok slantedValues ∧
      (∀ row ∈ slanted.rows.take slanted.rank,
        ∑ c, row.coefficient c * onSlanted (slantedNames.get c) = row.constant) ∧
      ∀ v ∈ slantedValues, v.AgreesAt (some ∘ onSlanted) := by
  have hform : IsRowEchelon slanted.rows slanted.pivotColumns :=
    isRowEchelon_iff.mpr ⟨by decide +kernel, by decide +kernel, by decide +kernel⟩
  have hrun : slanted.backSubstitute slantedNames = .ok slantedValues := by decide +kernel
  have hrows : ∀ row ∈ slanted.rows.take slanted.rank,
      ∑ c, row.coefficient c * onSlanted (slantedNames.get c) = row.constant := by
    decide +kernel
  obtain ⟨values, hvalues, -, -, hagree⟩ := exists_backSubstitute_of_isRowEchelon hform
  obtain rfl : values = slantedValues := Except.ok.inj (hvalues.symm.trans hrun)
  exact ⟨hform, hrun, hrows, (hagree (some ∘ onSlanted) onSlanted fun _ _ => rfl).mp hrows⟩

end Reduction

end LinearSystems
