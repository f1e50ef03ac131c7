import LinearSystems.Checked.Grid
import LinearSystems.Checked.Sides
import LinearSystems.Rendering
import LinearSystems.Solver

/-!
# Solving and writing by checked steps

A system is read, solved and written with checked steps all the way: from the texts, tables or
rows to the values of the unknowns, and from there to text and markup. What has no partial step,
such as collecting the unknowns or adding values, is shared with `Input.solve` and
`Solution.markup`.

* `solve`, `solveBlock`: the solution of an input and of a block of text.
* `solutionText`, `solutionMarkup`: a solution as text and as markup.
-/

namespace LinearSystems.Checked

open Number

/-! ## Equations -/

/-- The name of the unknown in a place: the letter so many places after the first one. Its code
has to fit into a byte, and so does the place, of which only the low byte counts. -/
def letter (i : Nat) : Except Fault String :=
  let code := 'a'.toNat + i % 256
  if code < 256 then .ok (String.singleton (Char.ofNat code)) else .error .outOfRange

def equationOfText (place : Nat) (text : String) : Except Failure Equation := do
  match ← (sidesOfText text).mapError Failure.fault with
  | .error defect => throw (.error (.malformed place defect))
  | .ok sides => return Equation.ofSides sides

/-- The equation of a row, whose last entry is the right-hand side. -/
def equationOfRow (row : List Rat) : Except Failure Equation :=
  match row.getLast? with
  | none => .error (.error (.dimension .emptyRow))
  | some value =>
    let coefficients := row.dropLast
    if positionalLimit < coefficients.length then
      .error (.error (.dimension (.tooManyUnknowns coefficients.length)))
    else do
      let pairs ← (coefficients.zipIdx.mapM fun (e : Rat × Nat) =>
        (letter e.2).map fun name => (name, e.1)).mapError Failure.fault
      return ⟨Table.ofList pairs, value⟩

/-- The equations of an input. -/
def equations : Input → Except Failure (List Equation)
  | .text lines => (lines.zipIdx 1).mapM fun (line, place) => equationOfText place line
  | .tables list => .ok (list.map Equation.ofTable)
  | .rows list => do
      (Input.checkRows list).mapError Failure.error
      list.mapM equationOfRow

/-! ## Solving -/

/-- The grid of the equations, with a column for each name. -/
def gridOfEquations (names : List String) (equations : List Equation) : Except Fault Grid :=
  Grid.fill equations.length names.length fun i j => do
    let e ← elementAt equations i
    if j = names.length then return e.value
    return e.coefficient (← elementAt names j)

/-- The reduction of the normal equations. -/
def leastSquares (g : Grid) : Except Failure Reduced := do
  let reduction ← (do (← g.normalEquations).reduce).mapError Failure.fault
  if (← reduction.classify.mapError Failure.fault) = .inconsistent then
    throw (.error (.unsolvable .inconsistentNormalEquations))
  return reduction

/-- The reduction that gives the solution, and whether it is an approximation. -/
def reduceFor (settings : Settings) (g : Grid) : Except Failure (Reduced × Bool) := do
  let direct ← g.reduce.mapError Failure.fault
  if (← direct.classify.mapError Failure.fault) = .inconsistent then
    if settings.leastSquares then
      return (← leastSquares g, true)
    else throw (.error (.unsolvable .inconsistent))
  else return (direct, false)

/-- The names of the free unknowns are looked up whether or not the settings accept them. -/
def solveGrid (settings : Settings) (names : List String) (g : Grid) :
    Except Failure Solution := do
  let (reduction, isApproximate) ← reduceFor settings g
  if let .underdetermined free ← reduction.classify.mapError Failure.fault then
    let freeNames ← (free.mapM (elementAt names)).mapError Failure.fault
    if settings.policy = .strict then
      throw (.error (.unsolvable (.freeUnknowns freeNames)))
  let values ← (reduction.backSubstitute names).mapError Failure.fault
  return ⟨values, isApproximate⟩

def solve (settings : Settings) (input : Input) : Except Failure Solution := do
  let system ← (LinearSystem.ofEquations (← equations input)).mapError Failure.error
  let grid ← (gridOfEquations system.unknowns system.equations).mapError Failure.fault
  solveGrid settings system.unknowns grid

/-- The solution of a block of text with one equation on each line. -/
def solveBlock (settings : Settings) (block : String) : Except Failure Solution :=
  solve settings (Input.ofBlock block)

/-! ## Writing -/

/-- The value with the numbers that a style shows. -/
def inStyle (v : Value) : Style → Except Fault Value
  | .fraction => .ok v
  | .decimal places => do
      let terms ← v.terms.entries.mapM fun (symbol, q) => do return (symbol, ← rounded places q)
      return .ofTerms v.name (Table.ofList terms)

def termText (style : Style) : Symbol × Rat → Except Fault (List Char)
  | (.constant, q) => write style q
  | (.unknown name, q) =>
    if q = 1 then .ok name.toList
    else if q = -1 then .ok ('-' :: name.toList)
    else (write style q).map (· ++ name.toList)

/-- The terms of a value, as text. -/
def expression (style : Style) (v : Value) : Except Fault (List Char) := do
  let shown ← inStyle v style
  let terms := shown.terms.entries.filter (fun e => decide (e.2 ≠ 0))
  if terms.isEmpty then return ['0']
  return dropPlus ([' ', '+', ' '].intercalate (← terms.mapM (termText style)))

def solutionText (style : Style) (s : Solution) : Except Fault (List Char) := do
  let texts ← s.shown.mapM fun v => do
    return v.name.toList ++ [' ', '=', ' '] ++ (← expression style v)
  return [',', ' '].intercalate texts

def solutionMarkup (style : Style) (s : Solution) : Except Fault String := do
  return Markup.ofText (← solutionText style s)

end LinearSystems.Checked
