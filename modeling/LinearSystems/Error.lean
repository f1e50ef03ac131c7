/-!
# Errors

Why a system is not read or not solved. An error is the cause it has, as data; the
words for it are chosen in one place, `Error.message`.

* `Defect`: what is wrong with the text of one equation, and in which column.
* `DimensionCause`, `UnsolvableCause`, `ReadCause`: the causes of the other kinds of error.
* `Error`: an error of any kind.
* `Fault`: a step that has no result, such as the reciprocal of zero. Solving never
  leads to one, and writing only if too many decimal places are asked for; it is kept
  apart from `Error` so that this can be stated.
-/

namespace LinearSystems

/-! ## Defects in the text of an equation -/

/-- What is wrong with the text of an equation. -/
inductive Defect.Cause where
  | unexpectedCharacter (char : Char)
  | unexpectedToken (text : String)
  | invalidNumber (text : String)
  | expectedOperator
  | nonlinearProduct (first second : String)
  | misplacedStar
  | expectedTerm
  | unbalancedClosing
  | missingExpression
  | danglingOperator
  | unclosedOpening
  | missingEquals
  | repeatedEquals
  /-- A cause in words. -/
  | described (text : String)
deriving DecidableEq

namespace Defect.Cause

def message : Cause → String
  | unexpectedCharacter char => s!"unexpected character '{char}'"
  | unexpectedToken text => s!"unexpected '{text}'"
  | invalidNumber text => s!"invalid number literal '{text}'"
  | expectedOperator => "expected an operator after ')'"
  | nonlinearProduct first second =>
      s!"product of unknowns '{first}' and '{second}' is not linear"
  | misplacedStar => "'*' must follow a number or a variable"
  | expectedTerm => "expected a term before ')'"
  | unbalancedClosing => "unbalanced ')'"
  | missingExpression => "missing expression"
  | danglingOperator => "expression ends with an operator"
  | unclosedOpening => "unclosed '('"
  | missingEquals => "missing '='"
  | repeatedEquals => "more than one '='"
  | described text => text

end Defect.Cause

/-- What is wrong with the text of an equation, and in which column, counted from one. -/
structure Defect where
  column : Nat
  cause : Defect.Cause
deriving DecidableEq

/-! ## Other causes -/

/-- The greatest number of unknowns that rows of coefficients alone can name. -/
def positionalLimit : Nat := 26

/-- Why equations do not make up a system. -/
inductive DimensionCause where
  | noEquations
  | noUnknowns
  | unevenRow (equation entries expected : Nat)
  | emptyRow
  | tooManyUnknowns (count : Nat)
  | described (text : String)
deriving DecidableEq

def DimensionCause.message : DimensionCause → String
  | noEquations => "system has no equations"
  | noUnknowns => "system has no unknowns"
  | unevenRow equation entries expected =>
      s!"equation {equation} has {entries} entries, expected {expected}"
  | emptyRow => "empty coefficient sequence"
  | tooManyUnknowns count =>
      s!"positional input supports at most {positionalLimit} unknowns, got {count}"
  | described text => text

/-- Why a system has no solution of the kind asked for. -/
inductive UnsolvableCause where
  | inconsistent
  | inconsistentNormalEquations
  | freeUnknowns (names : List String)
  | described (text : String)
deriving DecidableEq

def UnsolvableCause.message : UnsolvableCause → String
  | inconsistent => "system is inconsistent"
  | inconsistentNormalEquations => "normal equations are inconsistent"
  | freeUnknowns names => "no unique solution; free unknowns: " ++ ", ".intercalate names
  | described text => text

/-- Why a file of equations could not be read. -/
inductive ReadCause where
  /-- There are no bytes to read, in the words of the system. -/
  | system (words : String)
  | notUnicode
deriving DecidableEq

def ReadCause.message : ReadCause → String
  | system words => words
  | notUnicode => "stream did not contain valid UTF-8"

/-! ## Errors of any kind -/

/-- Why a system is not read or not solved. -/
inductive Error where
  /-- The text of an equation, counted from one, has a defect. -/
  | malformed (equation : Nat) (defect : Defect)
  | dimension (cause : DimensionCause)
  | unsolvable (cause : UnsolvableCause)
  | unreadable (path : String) (cause : ReadCause)
deriving DecidableEq

namespace Error

def message : Error → String
  | malformed equation ⟨column, cause⟩ =>
      let words := cause.message
      s!"Syntax error in equation {equation}, column {column}: {words}"
  | dimension cause => "Dimension error: " ++ cause.message
  | unsolvable cause => "System could not be solved: " ++ cause.message
  | unreadable path cause =>
      let words := cause.message
      s!"Failed to read equations file '{path}': {words}"

def isMalformed : Error → Bool
  | malformed _ _ => true
  | _ => false

def isDimension : Error → Bool
  | dimension _ => true
  | _ => false

def isUnsolvable : Error → Bool
  | unsolvable _ => true
  | _ => false

end Error

/-! ## Faults -/

/-- A step without a result: a place that there is not, a division by zero, or a decimal
with more places than a decimal can have. -/
inductive Fault where
  | outOfRange
  | zeroDivisor
  | tooManyPlaces
deriving DecidableEq

/-- The element of a list in a place, counted from zero. -/
def elementAt {α : Type} (l : List α) (i : Nat) : Except Fault α :=
  match l[i]? with
  | some a => .ok a
  | none => .error .outOfRange

theorem elementAt_eq_ok_iff {α : Type} {l : List α} {i : Nat} {a : α} :
    elementAt l i = .ok a ↔ l[i]? = some a := by
  rw [elementAt]
  cases l[i]? <;> simp

theorem elementAt_val {α : Type} {l : List α} (i : Fin l.length) :
    elementAt l i = .ok (l.get i) :=
  elementAt_eq_ok_iff.mpr (List.getElem?_eq_getElem i.isLt)

/-- Why a computation gave no answer: an error to report, or a fault. -/
inductive Failure where
  | error (error : Error)
  | fault (fault : Fault)
deriving DecidableEq

end LinearSystems
