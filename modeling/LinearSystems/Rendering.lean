import LinearSystems.Value

/-!
# Writing values and solutions

A value is written as its terms, constant first, with plus signs between them; a
coefficient of one is left out, and so is the one of a coefficient of minus one. A plus
sign right before a minus sign is dropped, so that `1 + -2z` becomes `1 - 2z`. Writing
faults if a number has to be written that the style has no room for; names alone can
always be written.

For markup, a text is cut into names, numbers, fractions and single characters, and each piece
is marked up on its own: names and fractions get tags, and the characters that have a
meaning in markup are escaped.

* `Value.expression`, `Value.text`, `Solution.text`: what is written.
* `Markup.pieces`: the cut.
* `Markup.Piece.markup`: the markup of a piece.
-/

namespace LinearSystems

open Number

/-- The text with a plus sign dropped wherever a blank and a minus sign follow it; the
blank then stands after the minus sign. -/
def dropPlus : List Char → List Char
  | '+' :: ' ' :: '-' :: rest => '-' :: ' ' :: dropPlus rest
  | c :: rest => c :: dropPlus rest
  | [] => []

def termText (style : Style) : Symbol × Rat → Except Fault (List Char)
  | (.constant, q) => style.write q
  | (.unknown name, q) =>
    if q = 1 then .ok name.toList
    else if q = -1 then .ok ('-' :: name.toList)
    else (style.write q).map (· ++ name.toList)

namespace Value

/-- The value with the numbers that a style shows. -/
def inStyle (v : Value) : Style → Value
  | .fraction => v
  | .decimal places => v.rounded places

/-- The terms of a value, as text. -/
def expression (style : Style) (v : Value) : Except Fault (List Char) :=
  let terms := (v.inStyle style).terms.entries.filter (fun e => decide (e.2 ≠ 0))
  if terms.isEmpty then .ok ['0']
  else (terms.mapM (termText style)).map fun texts =>
    dropPlus ([' ', '+', ' '].intercalate texts)

/-- The value as an equation, such as `y = 1/2 + z`. -/
def text (style : Style) (v : Value) : Except Fault (List Char) :=
  (v.expression style).map (v.name.toList ++ [' ', '=', ' '] ++ ·)

end Value

/-- The values of a solution that are worth telling, such as `a = 4, b = -3`. -/
def Solution.text (style : Style) (s : Solution) : Except Fault (List Char) :=
  (s.shown.mapM (Value.text style)).map ([',', ' '].intercalate ·)

/-! ## Markup -/

namespace Markup

/-- A part of a text that is marked up on its own. -/
inductive Piece where
  | name (text : List Char)
  | number (digits : List Char)
  | fraction (numerator denominator : List Char)
  | single (char : Char)
deriving DecidableEq

/-- What may follow the first digit of a number. -/
def continuesNumber (c : Char) : Bool := c.isDigit || c == '.'

/-- The pieces of a text. A slash after a number makes a fraction, whether or not digits
follow it. -/
def pieces : List Char → List Piece
  | [] => []
  | c :: rest =>
    if c.isAlpha then
      .name (c :: rest.takeWhile Char.isAlphanum) :: pieces (rest.dropWhile Char.isAlphanum)
    else if c.isDigit then
      let number := c :: rest.takeWhile continuesNumber
      match _h : rest.dropWhile continuesNumber with
      | '/' :: after =>
        .fraction number (after.takeWhile Char.isDigit) :: pieces (after.dropWhile Char.isDigit)
      | after => .number number :: pieces after
    else .single c :: pieces rest
termination_by text => text.length
decreasing_by
  · exact Nat.lt_succ_of_le (List.dropWhile_suffix _).length_le
  · have hafter := (List.dropWhile_suffix (l := after) Char.isDigit).length_le
    have hrest := (List.dropWhile_suffix (l := rest) continuesNumber).length_le
    rw [_h, List.length_cons] at hrest
    rw [List.length_cons]
    omega
  · rw [← _h]
    exact Nat.lt_succ_of_le (List.dropWhile_suffix _).length_le
  · exact Nat.lt_succ_self _

/-- The markup of a character that is not part of a name or number. -/
def escape : Char → String
  | '-' => "&minus;"
  | '&' => "&amp;"
  | '<' => "&lt;"
  | '>' => "&gt;"
  | c => c.toString

def fraction (numerator denominator : List Char) : String :=
  "<span class=\"fraction\"><span class=\"numerator\">" ++ String.ofList numerator ++
    "</span><span class=\"divider\">/</span><span class=\"denominator\">" ++
    String.ofList denominator ++ "</span></span>"

namespace Piece

def markup : Piece → String
  | name text => "<var>" ++ String.ofList text ++ "</var>"
  | number digits => String.ofList digits
  | fraction numerator denominator => Markup.fraction numerator denominator
  | single char => escape char

end Piece

def ofText (text : List Char) : String := String.join ((pieces text).map Piece.markup)

end Markup

def Value.markup (style : Style) (v : Value) : Except Fault String :=
  (v.text style).map Markup.ofText

def Solution.markup (style : Style) (s : Solution) : Except Fault String :=
  (s.text style).map Markup.ofText

end LinearSystems
