/-!
# Characters, lines and tokens

Blanks are the characters with the `White_Space` property. They have no meaning, neither
between the words of an equation nor around a line. A block of text holds one equation per
line, and the words of an equation are names, numbers and six signs.

* `pieces`: a text cut at the characters that satisfy a test. There is always at least one
  piece, and a cut at either end leaves an empty one.
* `lines`: the lines of a block. Blanks around a line and lines without anything else do not
  count.
* `Token`: a word and the column, counted from one, in which it starts.
-/

namespace LinearSystems.Text

/-! ## Blanks and lines -/

def isBlank (c : Char) : Bool :=
  let n := c.toNat
  (9 ≤ n && n ≤ 13) || n == 0x20 || n == 0x85 || n == 0xA0 || n == 0x1680 ||
    (0x2000 ≤ n && n ≤ 0x200A) || n == 0x2028 || n == 0x2029 || n == 0x202F ||
    n == 0x205F || n == 0x3000

/-- The text without the blanks at its two ends. -/
def trim (text : List Char) : List Char :=
  ((text.dropWhile isBlank).reverse.dropWhile isBlank).reverse

/-- The pieces of a text between the characters that `isCut` accepts. -/
def pieces (isCut : Char → Bool) : List Char → List (List Char)
  | [] => [[]]
  | c :: rest =>
    if isCut c then [] :: pieces isCut rest
    else
      match pieces isCut rest with
      | [] => [[c]]
      | piece :: more => (c :: piece) :: more

theorem pieces_ne_nil (isCut : Char → Bool) (text : List Char) : pieces isCut text ≠ [] := by
  cases text with
  | nil => simp [pieces]
  | cons c rest =>
      rw [pieces]
      split
      · simp
      · split <;> simp

/-- The lines of a block, trimmed, without the empty ones. -/
def lines (block : String) : List String :=
  (((pieces (· == '\n') block.toList).map trim).filter (fun line => !line.isEmpty)).map
    String.ofList

/-! ## Tokens -/

inductive Lexeme where
  | name (text : String)
  | number (text : String)
  | plus
  | minus
  | star
  | opening
  | closing
  | equals
deriving DecidableEq

namespace Lexeme

/-- The characters of a lexeme, blanks aside. -/
def text : Lexeme → String
  | name text => text
  | number text => text
  | plus => "+"
  | minus => "-"
  | star => "*"
  | opening => "("
  | closing => ")"
  | equals => "="

/-- The lexeme that a character is on its own. -/
def ofSign? : Char → Option Lexeme
  | '+' => some plus
  | '-' => some minus
  | '*' => some star
  | '(' => some opening
  | ')' => some closing
  | '=' => some equals
  | _ => none

/-- A name starts with a letter, one of the twenty-six. -/
def startsName (c : Char) : Bool := c.isAlpha

def continuesName (c : Char) : Bool := c.isAlphanum

/-- A number starts with a digit or a separator; a slash can only stand inside. -/
def startsNumber (c : Char) : Bool := c.isDigit || c == '.' || c == ','

def continuesNumber (c : Char) : Bool := startsNumber c || c == '/'

theorem continuesName_of_startsName {c : Char} (h : startsName c = true) :
    continuesName c = true :=
  Bool.or_eq_true_iff.mpr (Or.inl h)

theorem continuesNumber_of_startsNumber {c : Char} (h : startsNumber c = true) :
    continuesNumber c = true :=
  Bool.or_eq_true_iff.mpr (Or.inl h)

end Lexeme

structure Token where
  lexeme : Lexeme
  column : Nat
deriving DecidableEq

end LinearSystems.Text
