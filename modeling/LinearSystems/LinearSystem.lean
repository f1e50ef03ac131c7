import LinearSystems.Matrix
import LinearSystems.Side
import LinearSystems.Value

/-!
# Systems of equations

An equation says that a sum of multiples of unknowns equals a number. It is made from its
two sides, from a table of coefficients, or from a row of coefficients alone, whose
unknowns are then called `a`, `b`, `c` and so on.

A system is a list of equations, not empty, that mention at least one unknown. Its
unknowns are those of all equations, in the order of their names; they are the columns
of its matrix.

* `Equation.residual`: how far numbers for the unknowns are from satisfying an equation.
* `Input`: the forms in which a system can be given.
* `LinearSystem.ofEquations`, `LinearSystem.ofInput`: the systems that they are.
* `LinearSystem.ofEquations_eq_ok_iff`, `LinearSystem.ofEquations_eq_error_iff`: which
  equations make up a system, and why others do not.
* `LinearSystem.unknowns_sorted`: the unknowns are in strict order.
-/

namespace LinearSystems

/-! ## Equations -/

structure Equation where
  coefficients : Table String
  value : Rat
deriving DecidableEq

namespace Equation

/-- The equation with all unknowns on the left and all constants on the right. Unknowns
that cancel stay. -/
def ofSides (s : Sides) : Equation where
  coefficients := s.left.coefficients.merge (s.right.coefficients.map (-·))
  value := s.right.constant - s.left.constant

/-- The equation that a text is, at the given place among the equations. -/
def ofText (place : Nat) (text : String) : Except Error Equation :=
  ((Sides.ofText text).map ofSides).mapError (Error.malformed place)

/-- The equation of a table, whose constant is the right-hand side. -/
def ofTable (t : Table Symbol) : Equation where
  coefficients := Table.ofList (t.entries.filterMap fun (symbol, q) =>
    symbol.name?.map fun name => (name, q))
  value := t.coefficient .constant

/-- The names of unknowns that are given by their place. -/
def letters : List String :=
  ["a", "b", "c", "d", "e", "f", "g", "h", "i", "j", "k", "l", "m",
    "n", "o", "p", "q", "r", "s", "t", "u", "v", "w", "x", "y", "z"]

/-- The equation of a row, whose last entry is the right-hand side. -/
def ofRow (row : List Rat) : Except Error Equation :=
  match row.getLast? with
  | none => .error (.dimension .emptyRow)
  | some value =>
    let coefficients := row.dropLast
    if positionalLimit < coefficients.length then
      .error (.dimension (.tooManyUnknowns coefficients.length))
    else .ok ⟨Table.ofList (letters.zip coefficients), value⟩

/-- The coefficient of an unknown, zero if it is not mentioned. -/
def coefficient (e : Equation) (name : String) : Rat := e.coefficients.coefficient name

/-- The unknowns that are mentioned, in order. -/
def unknowns (e : Equation) : List String := e.coefficients.keys

/-- The left-hand side less the right-hand side, if all unknowns have a number. -/
def residual (e : Equation) (σ : String → Option Rat) : Option Rat :=
  (e.coefficients.evaluate σ).map (· - e.value)

end Equation

/-! ## Inputs and systems -/

/-- The unknowns of a list of equations, in order, each once. -/
def unknownsOf (equations : List Equation) : List String :=
  sortedKeys (equations.flatMap Equation.unknowns)

structure LinearSystem where
  equations : List Equation
  equations_ne_nil : equations ≠ []
  unknowns_ne_nil : unknownsOf equations ≠ []
deriving DecidableEq

/-- The forms in which a system can be given, the same for all its equations. -/
inductive Input where
  /-- One text for each equation. -/
  | text (lines : List String)
  /-- One table for each equation; the constant is the right-hand side. -/
  | tables (list : List (Table Symbol))
  /-- One row for each equation; the last entry is the right-hand side. -/
  | rows (list : List (List Rat))
deriving DecidableEq

namespace Input

/-- A block of text with one equation on each line. -/
def ofBlock (block : String) : Input := .text (Text.lines block)

/-- The input that a file holds, one equation on each line. Where the system has no bytes to give,
it says why in words. -/
def ofFile (path : String) (content : Except String ByteArray) : Except Error Input :=
  match content with
  | .error words => .error (.unreadable path (.system words))
  | .ok bytes =>
    match String.fromUTF8? bytes with
    | none => .error (.unreadable path .notUnicode)
    | some block => .ok (.ofBlock block)

/-- The first row that is not as long as the first one, with its place counted from one. -/
def unevenRow? (rows : List (List Rat)) : Option (List Rat × Nat) :=
  match rows with
  | [] => none
  | first :: _ => (rows.zipIdx 1).find? (fun (row, _) => row.length != first.length)

/-- All rows are to be as long as the first one, and there has to be one. -/
def checkRows (rows : List (List Rat)) : Except Error Unit :=
  match rows, unevenRow? rows with
  | [], _ => .error (.dimension .noEquations)
  | first :: _, some (row, place) =>
    .error (.dimension (.unevenRow place row.length first.length))
  | _, none => .ok ()

/-- The equations of an input. -/
def equations : Input → Except Error (List Equation)
  | text lines => (lines.zipIdx 1).mapM fun (line, place) => Equation.ofText place line
  | tables list => .ok (list.map Equation.ofTable)
  | rows list => do
      checkRows list
      list.mapM Equation.ofRow

end Input

namespace LinearSystem

/-- The system of a list of equations. -/
def ofEquations (equations : List Equation) : Except Error LinearSystem :=
  if he : equations = [] then .error (.dimension .noEquations)
  else if hu : unknownsOf equations = [] then .error (.dimension .noUnknowns)
  else .ok ⟨equations, he, hu⟩

def ofInput (input : Input) : Except Error LinearSystem := do
  ofEquations (← input.equations)

def unknowns (s : LinearSystem) : List String := unknownsOf s.equations

/-- The row of an equation over a list of unknowns. -/
def rowOf (names : List String) (e : Equation) : Row names.length where
  coefficients := Vector.ofFn fun j => e.coefficient (names.get j)
  constant := e.value

/-- The matrix of the system: a row for each equation, and a column for each unknown. -/
def matrix (s : LinearSystem) : AugmentedMatrix s.unknowns.length :=
  ⟨s.equations.map (rowOf s.unknowns)⟩

theorem ofEquations_eq_ok_iff {equations : List Equation} {s : LinearSystem} :
    ofEquations equations = .ok s ↔ s.equations = equations := by
  obtain ⟨own, hown, hunknowns⟩ := s
  rw [ofEquations]
  constructor
  · intro h
    split at h
    · cases h
    · split at h
      · cases h
      · cases h
        rfl
  · rintro rfl
    rw [dif_neg hown, dif_neg hunknowns]

/-- Why equations do not make up a system. -/
theorem ofEquations_eq_error_iff {equations : List Equation} {error : Error} :
    ofEquations equations = .error error ↔
      (equations = [] ∧ error = .dimension .noEquations) ∨
      (equations ≠ [] ∧ unknownsOf equations = [] ∧ error = .dimension .noUnknowns) := by
  rw [ofEquations]
  split
  · next hnil => simp [hnil, eq_comm (b := error)]
  · next hne =>
    split
    · next hnone => simp [hne, hnone, eq_comm (b := error)]
    · next hsome => simp [hne, hsome]

theorem unknowns_sorted (s : LinearSystem) :
    s.unknowns.Pairwise (fun a b => Key.before a b = true) :=
  sortedKeys_sorted _

end LinearSystem

end LinearSystems
