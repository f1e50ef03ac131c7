import LinearSystems.Checked.Numbers
import LinearSystems.Side

/-!
# Reading equations by checked steps

A side is read with a stack of levels: those of the open groups, from the innermost one on, and
last the base level, which is outside all groups. What a term is multiplied with is asked of the
innermost level, so there always has to be one, and the base level must never be left. Both are
checked here. The tokens and the other parts of the state are those of `Side.State`, with the
levels in the place of the groups.

* `accept`: one more token.
* `readFrom`, `readSides`: a side and an equation, as far as they are read.
* `sidesOfText`: the sides of the equation that a text is.
-/

namespace LinearSystems.Checked

open Text Side

/-- The level outside all groups. It has no parenthesis, and its column is never told. -/
def baseLevel : Group := ⟨.one, 0⟩

/-- The state at the start of a side, with the base level alone. -/
def initialState : State := { State.initial with groups := [baseLevel] }

/-! ## Levels -/

def innermost (s : State) : Except Fault Group := elementAt s.groups 0

/-- The number of groups that are open. -/
def depth (s : State) : Except Fault Nat := difference s.groups.length 1

/-- The state with the innermost level left, which must not be the base level. -/
def leave (s : State) : Except Fault State :=
  match s.groups with
  | _ :: next :: outer => .ok { s with groups := next :: outer }
  | _ => .error .outOfRange

/-! ## One token -/

/-- A sign ends the term before, and the next one starts from the innermost level. -/
def acceptSign (s : State) (lexeme : Lexeme) (isMinus : Bool) :
    Except Fault (Except Defect.Cause State) :=
  match s.previous with
  | .sign | .star => .ok (.error (.unexpectedToken lexeme.text))
  | _ => do
    let level ← innermost s
    let product := if isMinus then level.multiplier.negated else level.multiplier
    return .ok { s.store with product := product, previous := .sign }

def acceptNumber (s : State) (text : String) : Except Fault (Except Defect.Cause State) :=
  if s.previous = .closing then .ok (.error .expectedOperator)
  else do
    match ← number? text.toList with
    | none => return .error (.invalidNumber text)
    | some q =>
      return .ok { s with product := s.product.times q, pending := true, previous := .factor }

/-- The innermost group is closed, if there is one. -/
def close (s : State) : Except Fault (Except Defect.Cause State) := do
  if (← depth s) = 0 then return .error .unbalancedClosing
  let outside ← leave s
  let level ← innermost outside
  return .ok { outside with product := level.multiplier, previous := .closing }

def acceptClosing (s : State) : Except Fault (Except Defect.Cause State) :=
  match s.previous with
  | .factor | .closing => close s.store
  | _ => .ok (.error .expectedTerm)

/-- One more token of a side. An equals sign is never part of one. -/
def accept (s : State) (t : Token) : Except Fault (Except Defect.Cause State) :=
  match t.lexeme with
  | .name text => .ok (s.acceptName text)
  | .number text => acceptNumber s text
  | .plus => acceptSign s t.lexeme false
  | .minus => acceptSign s t.lexeme true
  | .star => .ok s.acceptStar
  | .opening => .ok (s.acceptOpening t.column)
  | .closing => acceptClosing s
  | .equals => .ok (.error (.unexpectedToken t.lexeme.text))

/-- The form of a side that ends in the given column. -/
def finish (s : State) (column : Nat) : Except Fault (Except Defect LinearForm) :=
  match s.previous with
  | .start => .ok (.error ⟨column, .missingExpression⟩)
  | .sign | .star | .opening => .ok (.error ⟨column, .danglingOperator⟩)
  | .factor | .closing => do
    if 0 < (← depth s) then return .error ⟨(← innermost s).column, .unclosedOpening⟩
    return .ok s.store.form

/-! ## Sides and equations -/

/-- Reads tokens up to an equals sign or to the end, as `Side.readFrom` does. -/
def readFrom (ending : Ending) :
    State → List Token → Except Fault (Except Defect LinearForm × List Token)
  | s, [] =>
    match ending.defect? with
    | some defect => .ok (.error defect, [])
    | none => return (← finish s ending.column, [])
  | s, t :: rest =>
    if t.lexeme = .equals then return (← finish s t.column, t :: rest)
    else do
      match ← accept s t with
      | .error cause => return (.error ⟨t.column, cause⟩, t :: rest)
      | .ok after =>
        match (⟨rest, ending⟩ : Scan).defect? with
        | some defect => return (.error defect, t :: rest)
        | none => readFrom ending after rest

/-- A side, and what is left after it. -/
def readSide (s : Scan) : Except Fault (Except Defect LinearForm × Scan) := do
  let (result, rest) ← readFrom s.ending initialState s.tokens
  return (result, { s with tokens := rest })

/-- An equation, and what is left after it. -/
def readSides (s : Scan) : Except Fault (Except Defect Sides × Scan) := do
  match ← readSide s with
  | (.error defect, rest) => return (.error defect, rest)
  | (.ok left, middle) =>
    match Sides.passEquals middle with
    | .error defect => return (.error defect, middle)
    | .ok after =>
      match ← readSide after with
      | (.error defect, rest) => return (.error defect, rest)
      | (.ok right, rest) =>
        if rest.tokens.isEmpty then return (.ok ⟨left, right⟩, rest)
        else return (.error ⟨rest.column, .repeatedEquals⟩, rest)

/-- The sides of the equation that a text is. -/
def sidesOfText (text : String) : Except Fault (Except Defect Sides) :=
  (readSides (scan text)).map Prod.fst

end LinearSystems.Checked
