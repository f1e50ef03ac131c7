import LinearSystems.Number
import LinearSystems.Table

/-!
# Values of unknowns

The value of an unknown is a constant plus multiples of free unknowns. Terms with the
coefficient zero are left out, but a value is never without terms: zero is the constant
zero.

A solution gives each unknown a value, in the order of the names. An approximate one
solves the system as well as it can be solved.

* `Symbol`: what a term is a multiple of.
* `Value`: the name of an unknown and the terms of its value.
* `Value.evaluate`: the number it is, once the free unknowns are numbers.
* `Solution`: the values of all unknowns.
-/

namespace LinearSystems

/-- What a term is a multiple of: the number one, or an unknown. -/
inductive Symbol where
  | constant
  | unknown (name : String)
deriving DecidableEq

namespace Symbol

def name? : Symbol → Option String
  | constant => none
  | unknown name => some name

/-- The number that a symbol stands for. -/
def weight (σ : String → Option Rat) : Symbol → Option Rat
  | constant => some 1
  | unknown name => σ name

/-- The constant comes first, then the unknowns by name. -/
def before : Symbol → Symbol → Bool
  | _, constant => false
  | constant, unknown _ => true
  | unknown a, unknown b => Key.before a b

theorem before_irrefl (a : Symbol) : before a a = false := by
  cases a with
  | constant => rfl
  | unknown name => exact Key.before_irrefl name

theorem before_trans {a b c : Symbol} (hab : before a b = true) (hbc : before b c = true) :
    before a c = true := by
  cases b with
  | constant => cases a <;> cases hab
  | unknown y =>
      cases c with
      | constant => cases hbc
      | unknown z =>
          cases a with
          | constant => rfl
          | unknown x => exact Key.before_trans hab hbc

theorem before_or_before {a b : Symbol} (h : a ≠ b) : before a b = true ∨ before b a = true := by
  cases a with
  | constant =>
      cases b with
      | constant => exact absurd rfl h
      | unknown => exact Or.inl rfl
  | unknown x =>
      cases b with
      | constant => exact Or.inr rfl
      | unknown y => exact Key.before_or_before (fun hxy => h (hxy ▸ rfl))

instance : Key Symbol where
  before := before
  before_irrefl := before_irrefl
  before_trans := before_trans
  before_or_before := before_or_before

end Symbol

/-- An unknown and its value, a sum of terms. -/
structure Value where
  name : String
  terms : Table Symbol
deriving DecidableEq

/-- The terms other than zero, or the constant zero if there are none. -/
def prune (terms : Table Symbol) : Table Symbol :=
  let kept := terms.filter (fun q => decide (q ≠ 0))
  if kept.entries.isEmpty then Table.singleton .constant 0 else kept

namespace Value

/-! ## Making values -/

def ofTerms (name : String) (terms : Table Symbol) : Value := ⟨name, prune terms⟩

/-- The value of an unknown that is a number. -/
def resolved (name : String) (q : Rat) : Value := ofTerms name (Table.singleton .constant q)

/-- The value of an unknown that is free: itself. -/
def free (name : String) : Value := ofTerms name (Table.singleton (.unknown name) 1)

/-- The sum, under the name on the left. -/
def add (v w : Value) : Value := ofTerms v.name (v.terms.merge w.terms)

instance : Add Value := ⟨add⟩

def scaled (v : Value) (q : Rat) : Value := ofTerms v.name (v.terms.map (· * q))

/-- The value with each coefficient rounded to a count of decimal places. -/
def rounded (v : Value) (places : Nat) : Value := ofTerms v.name (v.terms.map (roundTo places))

/-! ## Looking at values -/

/-- The constant part. -/
def constant (v : Value) : Rat := v.terms.coefficient .constant

/-- The coefficient of a free unknown. -/
def coefficient (v : Value) (name : String) : Rat := v.terms.coefficient (.unknown name)

/-- The free unknowns that the value depends on, in order. -/
def freeUnknowns (v : Value) : List String := v.terms.keys.filterMap Symbol.name?

/-- Whether the value is a number. -/
def isResolved (v : Value) : Bool := v.freeUnknowns.isEmpty

/-- Whether the value is the unknown itself. -/
def isFree (v : Value) : Bool := v.terms.entries.length == 1 && v.coefficient v.name == 1

/-- The value as a number, if all free unknowns in it are numbers. -/
def evaluate (σ : String → Option Rat) (v : Value) : Option Rat :=
  v.terms.evaluate (Symbol.weight σ)

end Value

/-! ## Solutions -/

structure Solution where
  values : List Value
  isApproximate : Bool
deriving DecidableEq

namespace Solution

def get? (s : Solution) (name : String) : Option Value := s.values.find? (·.name == name)

/-- Whether all values are numbers. -/
def isUnique (s : Solution) : Bool := s.values.all Value.isResolved

def freeUnknowns (s : Solution) : List String := (s.values.filter Value.isFree).map Value.name

/-- The numbers of the unknowns, if all values are numbers. -/
def assignment? (s : Solution) : Option (Table String) :=
  if s.isUnique then some (Table.ofList (s.values.map fun v => (v.name, v.constant)))
  else none

/-- The values worth telling: those of the unknowns that are not free, or all values if
all unknowns are free. -/
def shown (s : Solution) : List Value :=
  if s.values.all Value.isFree then s.values else s.values.filter (fun v => !v.isFree)

end Solution

end LinearSystems
