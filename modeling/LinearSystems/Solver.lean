import LinearSystems.LinearSystem
import LinearSystems.Reduction

/-!
# Solving a system

The matrix of a system is reduced. If the system has a solution, back-substitution gives
all of them, in terms of the free unknowns. If it has none, the normal equations are
solved instead, and the answer is an approximation.

Back-substitution takes the pivot rows from the last one up, so that the values to the right of
a pivot are known already; an unknown without a pivot is free. The rows need not be reduced
above their pivots. The names are those of the columns from the first one on. Where there is a
pivot row, a name for a column that the row does not have, and a pivot in a column without a
name, are faults.

* `Reduction.backSubstitute`: the values that pivot rows give.
* `solveMatrix`: the solution of a matrix with named columns.
* `LinearSystem.solve`, `Input.solve`, `solveBlock`: the same from a system, from an input and
  from a block of text.
-/

namespace LinearSystems

/-! ## Back-substitution -/

section BackSubstitution

variable {n : Nat}

/-- The value that a pivot row gives its unknown, if `values` are those of all columns. -/
def Pivot.solve (p : Pivot n) (names : List String) (values : List Value) :
    Except Fault Value := do
  let name ← elementAt names p.column
  let inverse ← reciprocal (p.row.coefficient p.column)
  if n + 1 < names.length then throw .outOfRange
  let later := (p.row.entries.zip values).drop (p.column + 1)
  let start := Value.resolved name (p.row.constant * inverse)
  return later.foldl (fun sum (entry, value) =>
    if entry = 0 then sum else sum + value.scaled (-(entry * inverse))) start

/-- The values of all columns, by the given pivot rows. -/
def solvePivots (names : List String) : List (Pivot n) → Except Fault (List Value)
  | [] => .ok (names.map Value.free)
  | p :: rest => do
      let values ← solvePivots names rest
      return values.set p.column (← p.solve names values)

/-- The values of all named columns. -/
def Reduction.backSubstitute (r : Reduction n) (names : List String) :
    Except Fault (List Value) :=
  solvePivots names r.pivots

end BackSubstitution

/-! ## Solving -/

/-- What is done with free unknowns. -/
inductive RankPolicy where
  /-- The other unknowns are given in terms of them. -/
  | parametrize
  | strict
deriving DecidableEq

structure Settings where
  policy : RankPolicy := .parametrize
  /-- Whether a system without a solution is approximated. -/
  leastSquares : Bool := true
deriving DecidableEq

/-- The reduction that gives the solution, and whether it is an approximation. -/
def Settings.reduce (settings : Settings) {n : Nat} (m : AugmentedMatrix n) :
    Except Failure (Reduction n × Bool) := do
  let direct ← m.reduce.mapError Failure.fault
  if direct.classify = .inconsistent then
    if settings.leastSquares then
      return (← m.leastSquares, true)
    else throw (.error (.unsolvable .inconsistent))
  else return (direct, false)

/-- The solution of a matrix whose columns have the given names. -/
def solveMatrix (settings : Settings) (names : List String)
    (m : AugmentedMatrix names.length) : Except Failure Solution := do
  let (reduction, isApproximate) ← settings.reduce m
  match reduction.classify, settings.policy with
  | .underdetermined free, .strict =>
    throw (.error (.unsolvable (.freeUnknowns (free.map names.get))))
  | _, _ =>
    let values ← (reduction.backSubstitute names).mapError Failure.fault
    return ⟨values, isApproximate⟩

def LinearSystem.solve (settings : Settings) (s : LinearSystem) : Except Failure Solution :=
  solveMatrix settings s.unknowns s.matrix

def Input.solve (settings : Settings) (input : Input) : Except Failure Solution := do
  let system ← (LinearSystem.ofInput input).mapError Failure.error
  system.solve settings

/-- The solution of a block of text with one equation on each line. -/
def solveBlock (settings : Settings) (block : String) : Except Failure Solution :=
  (Input.ofBlock block).solve settings

end LinearSystems
