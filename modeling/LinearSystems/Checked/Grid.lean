import LinearSystems.Checked.Numbers
import LinearSystems.Matrix
import LinearSystems.Value

/-!
# Solving in place

A grid stores the rows of an augmented matrix as lists of numbers. Rows and entries are reached by
their places, and elimination overwrites them. Nothing in the data says that a place is one of the
grid, that all rows are equally long, or that a pivot is not zero: this is checked at every step.

* `Grid`: its entries and rows, and what replaces them.
* `Grid.fill`, `Grid.normalEquations`: grids that are filled entry by entry.
* `Grid.reduce`: elimination, column by column.
* `Reduced.classify`, `Reduced.backSubstitute`: what the rows say about the unknowns.
-/

namespace LinearSystems.Checked

/-- The rows of an augmented matrix, and the number of its unknowns. -/
structure Grid where
  rows : List (List Rat)
  unknowns : Nat
deriving DecidableEq

namespace Grid

/-! ## Rows and entries -/

def zeros (count unknowns : Nat) : Grid :=
  ⟨List.replicate count (List.replicate (unknowns + 1) 0), unknowns⟩

def row (g : Grid) (i : Nat) : Except Fault (List Rat) := elementAt g.rows i

def entry (g : Grid) (i column : Nat) : Except Fault Rat := do
  elementAt (← g.row i) column

def constant (g : Grid) (i : Nat) : Except Fault Rat := g.entry i g.unknowns

/-- Whether all coefficients in a row are zero. -/
def isZeroRow (g : Grid) (i : Nat) : Except Fault Bool := do
  let (coefficients, _) ← cutAt (← g.row i) g.unknowns
  return coefficients.all (· == 0)

def setEntry (g : Grid) (i column : Nat) (q : Rat) : Except Fault Grid := do
  let row ← replaceAt (← g.row i) column q
  return { g with rows := ← replaceAt g.rows i row }

/-- The grid with another row, which has to be as long as all rows have to be. -/
def setRow (g : Grid) (i : Nat) (row : List Rat) : Except Fault Grid :=
  if row.length = g.unknowns + 1 then do return { g with rows := ← replaceAt g.rows i row }
  else .error .outOfRange

def swapRows (g : Grid) (i j : Nat) : Except Fault Grid := do
  let first ← g.row i
  let second ← g.row j
  return { g with rows := ← replaceAt (← replaceAt g.rows i second) j first }

/-! ## Filling -/

/-- The grid with the given entries, which are set one after the other. -/
def fill (count unknowns : Nat) (entryOf : Nat → Nat → Except Fault Rat) : Except Fault Grid :=
  (List.range count).foldlM (fun g i =>
    (List.range (unknowns + 1)).foldlM (fun g j => do g.setEntry i j (← entryOf i j)) g)
    (zeros count unknowns)

/-- The sum over the rows of the products of their entries in two columns. -/
def columnProduct (g : Grid) (i j : Nat) : Except Fault Rat :=
  g.rows.foldlM (fun sum row => do
    let x ← elementAt row i
    if x = 0 then return sum
    return sum + x * (← elementAt row j)) 0

def normalEquations (g : Grid) : Except Fault Grid := fill g.unknowns g.unknowns g.columnProduct

/-! ## Elimination -/

/-- The place of the first row from `start` on with an entry in the column. -/
def findPivot (g : Grid) (start column : Nat) : Except Fault (Option Nat) :=
  (List.range' start (g.rows.length - start)).findM? fun i => do
    return (← g.entry i column) != 0

/-- The grid with the column cleared by the row `unit` in all rows but the one in `place`. -/
def clear (g : Grid) (place column : Nat) (unit : List Rat) : Except Fault Grid :=
  (List.range g.rows.length).foldlM (fun g i => do
    if i = place then return g
    let factor ← g.entry i column
    if factor = 0 then return g
    g.setRow i ((← g.row i).zipWith (fun x y => x - factor * y) unit)) g

/-- The grid with the column cleared by the row in `place`, scaled to a one there. -/
def eliminate (g : Grid) (place column : Nat) : Except Fault Grid := do
  let inverse ← reciprocal (← g.entry place column)
  let unit := (← g.row place).map (· * inverse)
  (← g.clear place column unit).setRow place unit

end Grid

/-- A grid that is reduced up to some column: the columns of the pivots, in the order of the rows
in which they are. -/
structure Reduced where
  grid : Grid
  pivots : List Nat
deriving DecidableEq

/-- How many solutions a reduced grid has, with the places of the columns that are free. -/
inductive Shape where
  | unique
  | underdetermined (free : List Nat)
  | inconsistent
deriving DecidableEq

namespace Reduced

/-- The next column is visited, unless all rows have a pivot. The row that is found becomes the
first one below the pivot rows. -/
def visit (r : Reduced) (column : Nat) : Except Fault Reduced := do
  let place := r.pivots.length
  if place = r.grid.rows.length then return r
  match ← r.grid.findPivot place column with
  | none => return r
  | some found =>
    let swapped ← if found = place then .ok r.grid else r.grid.swapRows found place
    return ⟨← swapped.eliminate place column, r.pivots ++ [column]⟩

/-- Whether some row reads zero equals a number other than zero. -/
def isContradictory (r : Reduced) : Except Fault Bool :=
  (List.range r.grid.rows.length).anyM fun i => do
    if ← r.grid.isZeroRow i then return (← r.grid.constant i) != 0
    return false

/-- The columns without a pivot. -/
def freeColumns (r : Reduced) : List Nat :=
  (List.range r.grid.unknowns).filter (fun column => !r.pivots.contains column)

def classify (r : Reduced) : Except Fault Shape := do
  if ← r.isContradictory then return .inconsistent
  if r.freeColumns.isEmpty then return .unique
  return .underdetermined r.freeColumns

/-! ## Back-substitution -/

/-- The sum less what an entry in a later column says, by the value of that column. -/
def addEntry (values : List Value) (pivot : Rat) (sum : Value) : Rat × Nat → Except Fault Value
  | (entry, column) => do
    if entry = 0 then return sum
    return sum + (← elementAt values column).scaled (-(← quotient entry pivot))

/-- The value that the pivot row in place `i` gives, by the values of the later columns. -/
def pivotValue (r : Reduced) (names : List String) (values : List Value) (i column : Nat) :
    Except Fault Value := do
  let pivot ← r.grid.entry i column
  let name ← elementAt names column
  let start := Value.resolved name (← quotient (← r.grid.constant i) pivot)
  let (coefficients, _) ← cutAt (← r.grid.row i) names.length
  (coefficients.zipIdx.drop (column + 1)).foldlM (addEntry values pivot) start

/-- The values with that of one more column, by the pivot row in place `i`. -/
def substitute (r : Reduced) (names : List String) (values : List Value) :
    Nat × Nat → Except Fault (List Value)
  | (column, i) => do replaceAt values column (← r.pivotValue names values i column)

/-- The values of all named columns. The pivot rows are taken from the last one up. -/
def backSubstitute (r : Reduced) (names : List String) : Except Fault (List Value) :=
  r.pivots.zipIdx.reverse.foldlM (r.substitute names) (names.map Value.free)

end Reduced

/-- The reduced echelon form. -/
def Grid.reduce (g : Grid) : Except Fault Reduced :=
  (List.range g.unknowns).foldlM Reduced.visit ⟨g, []⟩

end LinearSystems.Checked
