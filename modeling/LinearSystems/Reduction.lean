import LinearSystems.Matrix
import LinearSystems.Number

/-!
# Reduction to echelon form

The columns of the unknowns are visited from left to right. In each of them the first
row that has no pivot yet and an entry other than zero becomes the pivot row: it is
scaled to a leading one, and the column is cleared in all other rows. A column without
such a row gets no pivot. In the end every unknown with a pivot is given by the unknowns
without one, which are free.

* `Reduction.visit`: one column.
* `AugmentedMatrix.reduce`: all columns.
-/

namespace LinearSystems

/-- A row and the column in which it gives the unknown. -/
structure Pivot (n : Nat) where
  column : Fin n
  row : Row n
deriving DecidableEq

/-- The rows with a pivot, in the order of their columns, and the rows without one. -/
structure Reduction (n : Nat) where
  pivots : List (Pivot n)
  rest : List (Row n)
deriving DecidableEq

/-- How many solutions reduced equations have. -/
inductive Classification (n : Nat) where
  | unique
  | underdetermined (free : List (Fin n))
  | inconsistent
deriving DecidableEq

/-! ## Choosing a pivot row -/

section TakePivot

variable {n : Nat}

/-- The first row with an entry in column `c`, and the other rows, with `first` in its
place. -/
def swapFor (c : Fin n) (first : Row n) : List (Row n) → Option (Row n × List (Row n))
  | [] => none
  | r :: rest =>
    if r.coefficient c ≠ 0 then some (r, first :: rest)
    else (swapFor c first rest).map fun (chosen, others) => (chosen, r :: others)

/-- The first row with an entry in column `c`, swapped to the front, and the other rows. -/
def takePivot (c : Fin n) : List (Row n) → Option (Row n × List (Row n))
  | [] => none
  | first :: rest =>
    if first.coefficient c ≠ 0 then some (first, rest) else swapFor c first rest

end TakePivot

/-! ## Visiting the columns -/

namespace Reduction

variable {n : Nat}

/-- All rows, those with a pivot first. -/
def rows (r : Reduction n) : List (Row n) := r.pivots.map Pivot.row ++ r.rest

def pivotColumns (r : Reduction n) : List (Fin n) := r.pivots.map Pivot.column

def rank (r : Reduction n) : Nat := r.pivots.length

/-- The columns without a pivot. -/
def freeColumns (r : Reduction n) : List (Fin n) :=
  (List.finRange n).filter (fun c => !r.pivotColumns.contains c)

/-- The reduction with column `c` cleared by the row `unit`, which is its new pivot row. -/
def withPivot (r : Reduction n) (c : Fin n) (unit : Row n) (others : List (Row n)) :
    Reduction n where
  pivots := (r.pivots.map fun p => { p with row := p.row.cleared c unit }) ++ [⟨c, unit⟩]
  rest := others.map fun row => row.cleared c unit

/-- The reduction after a visit of column `c`. -/
def visit (r : Reduction n) (c : Fin n) : Except Fault (Reduction n) :=
  match takePivot c r.rest with
  | none => .ok r
  | some (chosen, others) => do
      let inverse ← reciprocal (chosen.coefficient c)
      return r.withPivot c (chosen.scaled inverse) others

/-- A row that reads zero equals a number other than zero has no solution. -/
def isContradictory (r : Reduction n) : Bool :=
  r.rows.any fun row => row.isZero && row.constant != 0

def classify (r : Reduction n) : Classification n :=
  if r.isContradictory then .inconsistent
  else if r.freeColumns.isEmpty then .unique
  else .underdetermined r.freeColumns

end Reduction

namespace AugmentedMatrix

variable {n : Nat}

/-- The reduced echelon form. -/
def reduce (m : AugmentedMatrix n) : Except Fault (Reduction n) :=
  (List.finRange n).foldlM Reduction.visit ⟨[], m.rows⟩

/-- The reduction of the normal equations. -/
def leastSquares (m : AugmentedMatrix n) : Except Failure (Reduction n) := do
  let reduction ← m.normalEquations.reduce.mapError Failure.fault
  if reduction.classify = .inconsistent then
    throw (.error (.unsolvable .inconsistentNormalEquations))
  return reduction

end AugmentedMatrix

end LinearSystems
