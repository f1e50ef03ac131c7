import LinearSystems.Number
import LinearSystems.Table
import LinearSystems.Text.Cursor

/-!
# Reading the sides of an equation

A side is a sum of terms with signs. A term multiplies numbers, at most one unknown and,
last, at most one group in parentheses. The side is read in one pass, token by token: a
factor multiplies the running product, an opening parenthesis makes the running product
the multiplier of the group, and a sign starts again from the multiplier of the
innermost open group. So a product that is stored already carries all it is multiplied
with, and the terms go straight into the linear form of the whole side.

An equation is two sides with one equals sign between them. Reading stops at the first
token that is wrong; what is left of the scan then starts there.

* `LinearForm`: a sum of multiples of unknowns and a constant. It keeps an unknown that was
  mentioned, even if its multiples cancel.
* `Side.State`: what was read so far of a side.
* `Side.State.accept`: one more token.
* `Side.read`: a side, up to an equals sign or to the end of the text.
* `Sides.read`, `Side.readAlone`: an equation, or a side without an equals sign.
* `Sides.ofText`, `Side.ofText`: the same for a whole text.
-/

namespace LinearSystems

open Text

/-! ## Linear forms -/

structure LinearForm where
  coefficients : Table String
  constant : Rat
deriving DecidableEq

namespace LinearForm

def zero : LinearForm := ⟨∅, 0⟩

def addTerm (f : LinearForm) (name : String) (q : Rat) : LinearForm :=
  { f with coefficients := f.coefficients.add name q }

def addConstant (f : LinearForm) (q : Rat) : LinearForm :=
  { f with constant := f.constant + q }

/-- The coefficient of an unknown, zero if it is not mentioned. -/
def coefficient (f : LinearForm) (name : String) : Rat := f.coefficients.coefficient name

/-- The unknowns that are mentioned, in order. -/
def unknowns (f : LinearForm) : List String := f.coefficients.keys

/-- The value of a form, if all its unknowns have one. -/
def evaluate (σ : String → Option Rat) (f : LinearForm) : Option Rat :=
  (f.coefficients.evaluate σ).map (· + f.constant)

end LinearForm

/-! ## One side -/

namespace Side

/-- A product of numbers and of at most one unknown. -/
structure Product where
  scale : Rat
  unknown : Option String
deriving DecidableEq

namespace Product

def one : Product := ⟨1, none⟩

def negated (p : Product) : Product := { p with scale := -p.scale }

def times (p : Product) (q : Rat) : Product := { p with scale := p.scale * q }

end Product

/-- An open group: what it is multiplied with, and the column of its parenthesis. -/
structure Group where
  multiplier : Product
  column : Nat
deriving DecidableEq

/-- The kind of the token before, which decides what may follow. -/
inductive Previous where
  | start
  | sign
  | star
  | factor
  | opening
  | closing
deriving DecidableEq

/-- What was read of a side: the open groups from the innermost on, the running product,
whether it has a factor of its own that is not stored yet, and the terms stored. -/
structure State where
  groups : List Group
  product : Product
  pending : Bool
  form : LinearForm
  previous : Previous
deriving DecidableEq

namespace State

def initial : State := ⟨[], .one, false, .zero, .start⟩

/-- What a term of the innermost open group is multiplied with. -/
def multiplier (s : State) : Product :=
  match s.groups with
  | [] => .one
  | g :: _ => g.multiplier

/-- The running product is stored, if it has a factor of its own. -/
def store (s : State) : State :=
  if s.pending then
    let form :=
      match s.product.unknown with
      | some name => s.form.addTerm name s.product.scale
      | none => s.form.addConstant s.product.scale
    { s with form := form, pending := false }
  else s

/-- A sign ends the term before and starts the next one. -/
def acceptSign (s : State) (lexeme : Lexeme) (isMinus : Bool) : Except Defect.Cause State :=
  match s.previous with
  | .sign | .star => .error (.unexpectedToken lexeme.text)
  | _ =>
    let product := if isMinus then s.multiplier.negated else s.multiplier
    .ok { s.store with product := product, previous := .sign }

def acceptNumber (s : State) (text : String) : Except Defect.Cause State :=
  if s.previous = .closing then .error .expectedOperator
  else
    match Number.ofText? text.toList with
    | none => .error (.invalidNumber text)
    | some q =>
      .ok { s with product := s.product.times q, pending := true, previous := .factor }

def acceptName (s : State) (name : String) : Except Defect.Cause State :=
  if s.previous = .closing then .error .expectedOperator
  else
    match s.product.unknown with
    | some first => .error (.nonlinearProduct first name)
    | none =>
      let product := { s.product with unknown := some name }
      .ok { s with product := product, pending := true, previous := .factor }

def acceptStar (s : State) : Except Defect.Cause State :=
  if s.previous = .factor then .ok { s with previous := .star } else .error .misplacedStar

/-- An opening parenthesis makes the running product the multiplier of the group. -/
def acceptOpening (s : State) (column : Nat) : Except Defect.Cause State :=
  if s.previous = .closing then .error .expectedOperator
  else
    let group := ⟨s.product, column⟩
    .ok { s with groups := group :: s.groups, pending := false, previous := .opening }

/-- A closing parenthesis goes back to the multiplier of the group around. -/
def acceptClosing (s : State) : Except Defect.Cause State :=
  match s.previous with
  | .factor | .closing =>
    match s.store.groups with
    | [] => .error .unbalancedClosing
    | _ :: outer =>
      let outside := { s.store with groups := outer, previous := .closing }
      .ok { outside with product := outside.multiplier }
  | _ => .error .expectedTerm

/-- One more token of a side. An equals sign is never part of one. -/
def accept (s : State) (t : Token) : Except Defect.Cause State :=
  match t.lexeme with
  | .name text => s.acceptName text
  | .number text => s.acceptNumber text
  | .plus => s.acceptSign t.lexeme false
  | .minus => s.acceptSign t.lexeme true
  | .star => s.acceptStar
  | .opening => s.acceptOpening t.column
  | .closing => s.acceptClosing
  | .equals => .error (.unexpectedToken t.lexeme.text)

/-- The form of a side that ends in the given column. -/
def finish (s : State) (column : Nat) : Except Defect LinearForm :=
  match s.previous with
  | .start => .error ⟨column, .missingExpression⟩
  | .sign | .star | .opening => .error ⟨column, .danglingOperator⟩
  | .factor | .closing =>
    match s.groups with
    | g :: _ => .error ⟨g.column, .unclosedOpening⟩
    | [] => .ok s.store.form

end State

/-- Reads tokens up to an equals sign or to the end. The tokens that are left start
with the one at fault, or, if the text after it starts no token, with the last one. -/
def readFrom (ending : Ending) : State → List Token → Except Defect LinearForm × List Token
  | s, [] =>
    match ending.defect? with
    | some defect => (.error defect, [])
    | none => (s.finish ending.column, [])
  | s, t :: rest =>
    if t.lexeme = .equals then (s.finish t.column, t :: rest)
    else
      match s.accept t with
      | .error cause => (.error ⟨t.column, cause⟩, t :: rest)
      | .ok after =>
        match (⟨rest, ending⟩ : Scan).defect? with
        | some defect => (.error defect, t :: rest)
        | none => readFrom ending after rest

/-- A side, and what is left after it. -/
def read (s : Scan) : Except Defect LinearForm × Scan :=
  let (result, rest) := readFrom s.ending .initial s.tokens
  (result, { s with tokens := rest })

end Side

/-! ## Equations -/

/-- The two sides of an equation, as they are written. -/
structure Sides where
  left : LinearForm
  right : LinearForm
deriving DecidableEq

namespace Sides

/-- What is left after an equals sign, unless the text goes on with a character that
starts no token. -/
def passEquals (s : Scan) : Except Defect Scan :=
  match s.tokens with
  | [] => .error ⟨s.column, .missingEquals⟩
  | _ :: rest =>
    let after := { s with tokens := rest }
    match after.defect? with
    | some defect => .error defect
    | none => .ok after

/-- An equation, and what is left after it. -/
def read (s : Scan) : Except Defect Sides × Scan :=
  match Side.read s with
  | (.error defect, rest) => (.error defect, rest)
  | (.ok left, middle) =>
    match passEquals middle with
    | .error defect => (.error defect, middle)
    | .ok after =>
      match Side.read after with
      | (.error defect, rest) => (.error defect, rest)
      | (.ok right, rest) =>
        if rest.tokens.isEmpty then (.ok ⟨left, right⟩, rest)
        else (.error ⟨rest.column, .repeatedEquals⟩, rest)

/-- The sides of the equation that a text is. -/
def ofText (text : String) : Except Defect Sides := (read (scan text)).1

end Sides

namespace Side

/-- A side that is not part of an equation, and what is left after it. -/
def readAlone (s : Scan) : Except Defect LinearForm × Scan :=
  match read s with
  | (.error defect, rest) => (.error defect, rest)
  | (.ok form, rest) =>
    match rest.tokens with
    | [] => (.ok form, rest)
    | t :: _ => (.error ⟨t.column, .unexpectedToken t.lexeme.text⟩, rest)

/-- The form that a text is. -/
def ofText (text : String) : Except Defect LinearForm := (readAlone (scan text)).1

end Side

end LinearSystems
