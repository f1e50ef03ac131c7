import LinearSystems.Error

/-!
# Augmented matrices

A row of an augmented matrix holds one coefficient for each unknown, and a constant: it
stands for an equation. Rows are stored, so that reading an entry never repeats the
arithmetic that made it.

An augmented matrix is a list of rows over the same unknowns. Places are counted from
zero, and the constants are in the column after the last unknown; a place outside the
matrix is a fault.

* `Row.coefficient_scaled`, `Row.coefficient_minus`: the entries of a multiple and of a
  difference.
* `Row.isZero_iff`: a row is zero if all its coefficients are; the constant does not matter.
* `AugmentedMatrix.normalEquations`: the equations of the least sum of squared residuals.
-/

namespace LinearSystems

/-! ## Rows -/

/-- The coefficients of `n` unknowns, and a constant. -/
structure Row (n : Nat) where
  coefficients : Vector Rat n
  constant : Rat
deriving DecidableEq

namespace Row

variable {n : Nat}

def coefficient (r : Row n) (c : Fin n) : Rat := r.coefficients[c]

/-- The row without any entry other than zero. -/
def zero (n : Nat) : Row n := ⟨Vector.replicate n 0, 0⟩

/-- All entries; the constant is the last one. -/
def entries (r : Row n) : List Rat := r.coefficients.toList ++ [r.constant]

/-- The row with the given entries, if their number is right. -/
def ofEntries? (n : Nat) (l : List Rat) : Option (Row n) :=
  if h : l.length = n + 1 then
    some ⟨⟨l.dropLast.toArray, by simp [h]⟩, l.getLast (by rintro rfl; simp at h)⟩
  else none

/-- The row with another number in one column; the constant is in column `n`. -/
def set? (r : Row n) (column : Nat) (q : Rat) : Option (Row n) :=
  if h : column < n then some { r with coefficients := r.coefficients.set column q h }
  else if column = n then some { r with constant := q }
  else none

/-- Whether all coefficients are zero. -/
def isZero (r : Row n) : Bool := r.coefficients.all (· == 0)

def scaled (r : Row n) (q : Rat) : Row n := ⟨r.coefficients.map (· * q), r.constant * q⟩

/-- The row less a multiple of another one. -/
def minus (r : Row n) (q : Rat) (p : Row n) : Row n :=
  ⟨r.coefficients.zipWith (fun x y => x - q * y) p.coefficients, r.constant - q * p.constant⟩

/-- The row less the multiple of `p` that has the same coefficient in column `c`, where
`p` has a one there. -/
def cleared (r : Row n) (c : Fin n) (p : Row n) : Row n := r.minus (r.coefficient c) p

@[simp] theorem coefficient_scaled (r : Row n) (q : Rat) (c : Fin n) :
    (r.scaled q).coefficient c = r.coefficient c * q := by
  simp [scaled, coefficient]

@[simp] theorem constant_scaled (r : Row n) (q : Rat) :
    (r.scaled q).constant = r.constant * q := rfl

@[simp] theorem coefficient_minus (r p : Row n) (q : Rat) (c : Fin n) :
    (r.minus q p).coefficient c = r.coefficient c - q * p.coefficient c := by
  simp [minus, coefficient]

@[simp] theorem constant_minus (r p : Row n) (q : Rat) :
    (r.minus q p).constant = r.constant - q * p.constant := rfl

theorem isZero_iff {r : Row n} : r.isZero = true ↔ ∀ c, r.coefficient c = 0 := by
  simp [isZero, coefficient, Fin.forall_iff]

end Row

/-! ## Matrices -/

/-- A list of rows over `n` unknowns. -/
structure AugmentedMatrix (n : Nat) where
  rows : List (Row n)
deriving DecidableEq

namespace AugmentedMatrix

variable {n : Nat}

/-- The matrix of the given number of rows of zeros. -/
def zeros (count n : Nat) : AugmentedMatrix n := ⟨List.replicate count (Row.zero n)⟩

/-- The matrix with the given entries, if all rows are as long as they have to be. -/
def ofEntries? (n : Nat) (rows : List (List Rat)) : Option (AugmentedMatrix n) :=
  (rows.mapM (Row.ofEntries? n)).map AugmentedMatrix.mk

def entries (m : AugmentedMatrix n) : List (List Rat) := m.rows.map Row.entries

def rowCount (m : AugmentedMatrix n) : Nat := m.rows.length

/-! ## Single rows and entries -/

def row (m : AugmentedMatrix n) (i : Nat) : Except Fault (Row n) := elementAt m.rows i

def entry (m : AugmentedMatrix n) (i column : Nat) : Except Fault Rat := do
  elementAt (← m.row i).entries column

def setRow (m : AugmentedMatrix n) (i : Nat) (r : Row n) : Except Fault (AugmentedMatrix n) :=
  if i < m.rows.length then .ok ⟨m.rows.set i r⟩ else .error .outOfRange

def setEntry (m : AugmentedMatrix n) (i column : Nat) (q : Rat) :
    Except Fault (AugmentedMatrix n) := do
  match (← m.row i).set? column q with
  | some r => m.setRow i r
  | none => .error .outOfRange

def swapRows (m : AugmentedMatrix n) (i j : Nat) : Except Fault (AugmentedMatrix n) := do
  let first ← m.row i
  let second ← m.row j
  (← m.setRow i second).setRow j first

/-! ## Normal equations -/

-- The zero that sums start from. Where Mathlib is imported, another instance would be found.
local instance : Zero Rat := ⟨0⟩

/-- The transpose of the coefficients, times the matrix. Whatever the matrix, these
equations have a solution, and their solutions are the points with the least sum of
squared residuals. -/
def normalEquations (m : AugmentedMatrix n) : AugmentedMatrix n :=
  ⟨(List.finRange n).map fun i =>
    { coefficients := Vector.ofFn fun j =>
        (m.rows.map fun r => r.coefficient i * r.coefficient j).sum
      constant := (m.rows.map fun r => r.coefficient i * r.constant).sum }⟩

end AugmentedMatrix

end LinearSystems
