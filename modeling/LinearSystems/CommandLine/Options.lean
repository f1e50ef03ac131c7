import LinearSystems.Number
import LinearSystems.Solver

/-!
# Options of the command line

Arguments are read from left to right. A long option is spelled in full; short options
may be joined, and the count of decimal places may follow its option at once, after an
equals sign or as an argument of its own. After two hyphens alone all arguments are
files. No option is given twice, and there is at most one file.

* `Options.read`: the options that the arguments are, if they are right.
-/

namespace LinearSystems.CommandLine

/-- What the arguments ask for. -/
structure Options where
  file : Option String := none
  places : Option Nat := none
  decimal : Bool := false
  markup : Bool := false
  strict : Bool := false
  exactOnly : Bool := false
  verbose : Bool := false
deriving DecidableEq

/-- An option without a value. -/
inductive Switch where
  | decimal
  | markup
  | strict
  | exactOnly
  | verbose
deriving DecidableEq

namespace Switch

/-- The option of one letter. -/
def ofLetter? : Char → Option Switch
  | 'd' => some decimal
  | 'm' => some markup
  | 'v' => some verbose
  | _ => none

/-- The option of a word. -/
def ofWord? (word : List Char) : Option Switch :=
  if word = "decimal".toList then some decimal
  else if word = "markup".toList then some markup
  else if word = "strict".toList then some strict
  else if word = "no-least-squares".toList then some exactOnly
  else if word = "verbose".toList then some verbose
  else none

end Switch

/-- The letter and the word of the option whose value is the count of decimal places. -/
def placesLetter : Char := 'p'

def placesWord : List Char := "precision".toList

/-- A count fits into sixty-four bits. -/
def countLimit : Nat := 0x10000000000000000

/-- A count: digits, after a plus sign or not. -/
def count? (text : List Char) : Option Nat :=
  let digits :=
    match text with
    | '+' :: rest => rest
    | _ => text
  let n := Nat.ofDigitChars 10 digits 0
  if !digits.isEmpty && digits.all Char.isDigit && n < countLimit then some n else none

/-- What was read of the arguments: the options, whether the count of decimal places is
due, and whether all that follows are files. -/
structure State where
  options : Options := {}
  placesDue : Bool := false
  filesOnly : Bool := false
deriving DecidableEq

namespace State

def turnOn (s : State) (switch : Switch) : Option State :=
  match switch with
  | .decimal =>
    if s.options.decimal then none else some { s with options.decimal := true }
  | .markup =>
    if s.options.markup then none else some { s with options.markup := true }
  | .strict =>
    if s.options.strict then none else some { s with options.strict := true }
  | .exactOnly =>
    if s.options.exactOnly then none else some { s with options.exactOnly := true }
  | .verbose =>
    if s.options.verbose then none else some { s with options.verbose := true }

def setPlaces (s : State) (text : List Char) : Option State :=
  match s.options.places, count? text with
  | none, some n => some { s with options.places := some n, placesDue := false }
  | _, _ => none

/-- The count of decimal places is the next argument. -/
def awaitPlaces (s : State) : Option State :=
  if s.options.places.isSome then none else some { s with placesDue := true }

def setFile (s : State) (path : String) : Option State :=
  if s.options.file.isSome || path.isEmpty then none
  else some { s with options.file := some path }

/-- One argument of joined short options. -/
def acceptLetters (s : State) : List Char → Option State
  | [] => some s
  | c :: rest =>
    if c = placesLetter then
      match rest with
      | [] => s.awaitPlaces
      | '=' :: text => s.setPlaces text
      | text => s.setPlaces text
    else do
      let switch ← Switch.ofLetter? c
      let next ← s.turnOn switch
      next.acceptLetters rest

/-- One argument of a long option, without its hyphens. -/
def acceptWord (s : State) (text : List Char) : Option State :=
  let word := text.takeWhile (· != '=')
  match text.dropWhile (· != '=') with
  | [] =>
    if word = placesWord then s.awaitPlaces
    else (Switch.ofWord? word).bind s.turnOn
  | _ :: value => if word = placesWord then s.setPlaces value else none

/-- One more argument. A lone hyphen is a file. -/
def accept (s : State) (arg : String) : Option State :=
  if s.placesDue then s.setPlaces arg.toList
  else if s.filesOnly then s.setFile arg
  else
    match arg.toList with
    | ['-', '-'] => some { s with filesOnly := true }
    | '-' :: '-' :: word => s.acceptWord word
    | '-' :: c :: rest => s.acceptLetters (c :: rest)
    | _ => s.setFile arg

end State

namespace Options

/-- The options that the arguments are, if they are right. -/
def read (args : List String) : Option Options := do
  let s ← args.foldlM State.accept {}
  if s.placesDue then none else some s.options

/-- How numbers are to be written. The count of places only matters to decimals. -/
def style (o : Options) : Number.Style :=
  if o.decimal then .decimal (o.places.getD Number.Style.defaultPlaces) else .fraction

def settings (o : Options) : Settings where
  policy := if o.strict then .strict else .parametrize
  leastSquares := !o.exactOnly

end Options

end LinearSystems.CommandLine
