import LinearSystems.Error
import LinearSystems.Text.Basic

/-!
# From text to tokens

A `Cursor` stands in a text, before its next character. `Cursor.next` reads one token, as long
as it can be, and `Cursor.scan` all of them up to the end of the text or to a character that
starts no token.

Blanks never matter, and they are skipped where they stand: all of them before a token, and
those inside a name or a number as long as the next character that is no blank goes on with
it. That takes a look ahead, so that the cursor stops before the blanks that follow a token.

* `Cursor.length_of_next`: a token takes at least one character, so the scan ends.
* `Cursor.scan_of_next`, `Cursor.scan_of_ending`: the scan, one step at a time.
-/

namespace LinearSystems.Text

/-- Why there is no further token. -/
inductive Ending where
  | finished (column : Nat)
  | unexpected (char : Char) (column : Nat)
deriving DecidableEq

namespace Ending

def column : Ending → Nat
  | finished column => column
  | unexpected _ column => column

/-- A text must not go on with a character that starts no token. -/
def defect? : Ending → Option Defect
  | finished _ => none
  | unexpected char column => some ⟨column, .unexpectedCharacter char⟩

end Ending

/-- The tokens that are left, and what comes after the last of them. -/
structure Scan where
  tokens : List Token
  ending : Ending
deriving DecidableEq

namespace Scan

/-- The column of the token that is next, or of the ending. -/
def column (s : Scan) : Nat :=
  match s.tokens with
  | [] => s.ending.column
  | t :: _ => t.column

/-- The defect of a text that goes on, but not with a token. -/
def defect? (s : Scan) : Option Defect := if s.tokens.isEmpty then s.ending.defect? else none

end Scan

/-- A place in a text: its column, and the characters from there on, blanks included. -/
structure Cursor where
  column : Nat
  rest : List Char
deriving DecidableEq

namespace Cursor

/-- The cursor at the start of a text. -/
def ofText (text : String) : Cursor := ⟨1, text.toList⟩

def skipBlanks (column : Nat) : List Char → Cursor
  | [] => ⟨column, []⟩
  | c :: rest => if isBlank c then skipBlanks (column + 1) rest else ⟨column, c :: rest⟩

/-- Whether the next character that is no blank is accepted. -/
def goesOn (accepts : Char → Bool) (l : List Char) : Bool :=
  (l.find? fun c => !isBlank c).any accepts

/-- The accepted characters that come next, blanks between them aside, and the place after the
last of them. -/
def takeRun (accepts : Char → Bool) (column : Nat) : List Char → List Char × Cursor
  | [] => ([], ⟨column, []⟩)
  | c :: rest =>
    if accepts c then
      let (text, after) := takeRun accepts (column + 1) rest
      (c :: text, after)
    else if isBlank c && goesOn accepts rest then takeRun accepts (column + 1) rest
    else ([], ⟨column, c :: rest⟩)

/-- The token of the characters that come next and are accepted. -/
def run (p : Cursor) (accepts : Char → Bool) (lexeme : String → Lexeme) : Token × Cursor :=
  let (text, after) := takeRun accepts p.column p.rest
  (⟨lexeme (String.ofList text), p.column⟩, after)

/-- The next token and the cursor after it, or why there is none. -/
def next (p : Cursor) : Except Ending (Token × Cursor) :=
  let first := skipBlanks p.column p.rest
  match first.rest with
  | [] => .error (.finished first.column)
  | c :: rest =>
    match Lexeme.ofSign? c with
    | some lexeme => .ok (⟨lexeme, first.column⟩, ⟨first.column + 1, rest⟩)
    | none =>
      if Lexeme.startsNumber c then .ok (first.run Lexeme.continuesNumber .number)
      else if Lexeme.startsName c then .ok (first.run Lexeme.continuesName .name)
      else .error (.unexpected c first.column)

theorem length_skipBlanks_le (column : Nat) (l : List Char) :
    (skipBlanks column l).rest.length ≤ l.length := by
  induction l generalizing column with
  | nil => exact Nat.le_refl _
  | cons c rest ih =>
      rw [skipBlanks]
      split
      · exact Nat.le_succ_of_le (ih (column + 1))
      · exact Nat.le_refl _

theorem length_takeRun_le (accepts : Char → Bool) (column : Nat) (l : List Char) :
    (takeRun accepts column l).2.rest.length ≤ l.length := by
  induction l generalizing column with
  | nil => exact Nat.le_refl _
  | cons c rest ih =>
      rw [takeRun]
      split
      · exact Nat.le_succ_of_le (ih (column + 1))
      · split
        · exact Nat.le_succ_of_le (ih (column + 1))
        · exact Nat.le_refl _

theorem length_of_run {accepts : Char → Bool} {lexeme : String → Lexeme} {p after : Cursor}
    {c : Char} {rest : List Char} {t : Token} (hrest : p.rest = c :: rest) (hc : accepts c = true)
    (h : p.run accepts lexeme = (t, after)) : after.rest.length < p.rest.length := by
  rw [run, hrest, takeRun, if_pos hc] at h
  cases h
  rw [hrest]
  exact Nat.lt_succ_of_le (length_takeRun_le accepts (p.column + 1) rest)

theorem length_of_next {p after : Cursor} {t : Token} (h : p.next = .ok (t, after)) :
    after.rest.length < p.rest.length := by
  refine Nat.lt_of_lt_of_le ?_ (length_skipBlanks_le p.column p.rest)
  rw [next] at h
  generalize skipBlanks p.column p.rest = first at h
  split at h
  · cases h
  · next c rest hrest =>
    split at h
    · cases h
      rw [hrest]
      exact Nat.lt_succ_self _
    · split at h
      · next hnumber =>
        exact length_of_run hrest (Lexeme.continuesNumber_of_startsNumber hnumber)
          (Except.ok.inj h)
      · split at h
        · next hname =>
          exact length_of_run hrest (Lexeme.continuesName_of_startsName hname) (Except.ok.inj h)
        · cases h

/-- All tokens from the cursor on. -/
def scan (p : Cursor) : Scan :=
  match _h : p.next with
  | .error ending => ⟨[], ending⟩
  | .ok (t, after) =>
    let s := after.scan
    ⟨t :: s.tokens, s.ending⟩
termination_by p.rest.length
decreasing_by exact length_of_next _h

theorem scan_of_ending {p : Cursor} {ending : Ending} (h : p.next = .error ending) :
    p.scan = ⟨[], ending⟩ := by
  rw [scan]
  split
  · next h' => rw [h] at h'; cases h'; rfl
  · next h' => rw [h] at h'; cases h'

theorem scan_of_next {p after : Cursor} {t : Token} (h : p.next = .ok (t, after)) :
    p.scan = ⟨t :: after.scan.tokens, after.scan.ending⟩ := by
  rw [scan]
  split
  · next h' => rw [h] at h'; cases h'
  · next h' => rw [h] at h'; cases h'; rfl

end Cursor

/-- The tokens of a text. -/
def scan (text : String) : Scan := (Cursor.ofText text).scan

end LinearSystems.Text
