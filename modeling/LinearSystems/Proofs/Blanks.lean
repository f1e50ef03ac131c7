import LinearSystems.Proofs.Marks
import LinearSystems.Side
import Mathlib.Data.List.Basic

/-!
# Blanks have no meaning

Reading never looks at the columns it goes through. It only passes them on, to the tokens, to
the open groups and to the defect that it stops at. So it makes no difference whether the marks
of a text are moved to other columns before they are read, or what was read afterwards.

Scanning skips blanks where they stand, so what it looks at are the marks of a text. A text
without its blanks has the same marks, each moved to the left by the blanks before it. So it is
read as the text is, up to this move.

* `moved`: marks, tokens, scans, states and defects in other columns.
* `Cursor.next_moved`, `State.accept_moved`: one token, scanned and read in other columns.
* `Cursor.scan_moved`, `Side.readFrom_moved`, `Sides.read_moved`: the same for a whole text.
* `stripped_withoutBlanks`: what dropping the blanks does to the marks.
* `Sides.ofText_ignores_blanks`: equations with and without their blanks.
-/

namespace LinearSystems

open Text Side

/-! ## Other columns -/

section Moved

variable (f : Nat → Nat)

def Text.Mark.moved (m : Mark) : Mark := { m with column := f m.column }

def Text.Token.moved (t : Token) : Token := { t with column := f t.column }

def Text.Stripped.moved (s : Stripped) : Stripped := ⟨s.marks.map (Mark.moved f), f s.finish⟩

def Text.Ending.moved : Ending → Ending
  | finished column => finished (f column)
  | unexpected char column => unexpected char (f column)

def Text.Scan.moved (s : Scan) : Scan := ⟨s.tokens.map (Token.moved f), s.ending.moved f⟩

def Defect.moved (d : Defect) : Defect := { d with column := f d.column }

def Side.Group.moved (g : Group) : Group := { g with column := f g.column }

def Side.State.moved (s : State) : State := { s with groups := s.groups.map (Group.moved f) }

end Moved

variable {f : Nat → Nat}

/-! ## Scanning -/

namespace Text

namespace Cursor

variable {p q : Cursor}

theorem runText_moved (continues : Char → Bool) (m : Mark) (marks : List Mark) :
    runText continues (m.moved f) (marks.map (Mark.moved f)) = runText continues m marks := by
  have htake : (marks.map (Mark.moved f)).takeWhile (continues ·.char) =
      (marks.takeWhile (continues ·.char)).map (Mark.moved f) := List.takeWhile_map ..
  rw [runText, runText, htake, List.map_map]
  rfl

theorem dropWhile_moved (continues : Char → Bool) (marks : List Mark) :
    (marks.map (Mark.moved f)).dropWhile (continues ·.char) =
      (marks.dropWhile (continues ·.char)).map (Mark.moved f) :=
  List.dropWhile_map ..

theorem leading?_moved (m : Mark) (marks : List Mark) :
    leading? (m.moved f) (marks.map (Mark.moved f)) =
      (leading? m marks).map (Prod.map id (List.map (Mark.moved f))) := by
  have hchar : (m.moved f).char = m.char := rfl
  unfold leading?
  simp only [hchar, runText_moved, dropWhile_moved]
  cases Lexeme.ofSign? m.char with
  | some a => rfl
  | none =>
      simp only
      split
      · rfl
      · split <;> rfl

/-- The next token is scanned in all columns alike. -/
theorem next_moved (h : q.stripped = p.stripped.moved f) :
    (∃ ending, p.next = .error ending ∧ q.next = .error (ending.moved f)) ∨
      ∃ t after after', p.next = .ok (t, after) ∧ q.next = .ok (t.moved f, after') ∧
        after'.stripped = after.stripped.moved f := by
  rcases hp : p.stripped with ⟨marks, finish⟩
  rw [hp] at h
  cases marks with
  | nil => exact Or.inl ⟨_, next_of_finished hp, next_of_finished h⟩
  | cons m marks =>
      have hq : q.stripped = ⟨m.moved f :: marks.map (Mark.moved f), f finish⟩ := h
      have hmoved := leading?_moved (f := f) m marks
      rcases next_of_marks hp with ⟨a, left, after, hlead, hnext, hafter⟩ | ⟨hlead, hnext⟩ <;>
        rw [hlead] at hmoved <;>
        rcases next_of_marks hq with ⟨a', left', after', hlead', hnext', hafter'⟩ | ⟨hlead', hnext'⟩
      · obtain ⟨rfl, rfl⟩ := Prod.mk.inj (Option.some.inj (hlead'.symm.trans hmoved))
        refine Or.inr ⟨_, after, after', hnext, hnext', ?_⟩
        rw [hafter', hafter]
        rfl
      · cases hlead'.symm.trans hmoved
      · cases hlead'.symm.trans hmoved
      · exact Or.inl ⟨_, hnext, hnext'⟩

theorem scan_moved (h : q.stripped = p.stripped.moved f) : q.scan = p.scan.moved f := by
  induction p using scan.induct generalizing q with
  | case1 p ending hnext =>
      rcases next_moved h with ⟨ending', hp, hq⟩ | ⟨t, after, after', hp, -, -⟩
      · cases hnext.symm.trans hp
        rw [scan_of_ending hnext, scan_of_ending hq]
        rfl
      · cases hnext.symm.trans hp
  | case2 p t after hnext ih =>
      rcases next_moved h with ⟨ending', hp, -⟩ | ⟨t', rest, rest', hp, hq, hrest⟩
      · cases hnext.symm.trans hp
      · cases hnext.symm.trans hp
        rw [scan_of_next hnext, scan_of_next hq, ih hrest]
        rfl

end Cursor

theorem Ending.column_moved (ending : Ending) : (ending.moved f).column = f ending.column := by
  cases ending <;> rfl

theorem Ending.defect?_moved (ending : Ending) :
    (ending.moved f).defect? = ending.defect?.map (Defect.moved f) := by
  cases ending <;> rfl

theorem Scan.column_moved (s : Scan) : (s.moved f).column = f s.column := by
  obtain ⟨_ | ⟨t, rest⟩, ending⟩ := s
  · exact ending.column_moved
  · rfl

theorem Scan.defect?_moved (s : Scan) : (s.moved f).defect? = s.defect?.map (Defect.moved f) := by
  obtain ⟨_ | ⟨t, rest⟩, ending⟩ := s
  · exact ending.defect?_moved
  · rfl

end Text

/-! ## Reading -/

namespace Side

namespace State

theorem previous_moved (s : State) : (s.moved f).previous = s.previous := rfl

theorem product_moved (s : State) : (s.moved f).product = s.product := rfl

theorem multiplier_moved (s : State) : (s.moved f).multiplier = s.multiplier := by
  obtain ⟨_ | ⟨g, groups⟩, product, pending, form, previous⟩ := s <;> rfl

theorem store_moved (s : State) : (s.moved f).store = s.store.moved f := by
  obtain ⟨groups, product, pending, form, previous⟩ := s
  cases pending <;> rfl

theorem acceptSign_moved (s : State) (lexeme : Lexeme) (isMinus : Bool) :
    (s.moved f).acceptSign lexeme isMinus = (s.acceptSign lexeme isMinus).map (State.moved f) := by
  rw [acceptSign, acceptSign, previous_moved, multiplier_moved, store_moved]
  cases s.previous <;> rfl

theorem acceptNumber_moved (s : State) (text : String) :
    (s.moved f).acceptNumber text = (s.acceptNumber text).map (State.moved f) := by
  rw [acceptNumber, acceptNumber, previous_moved]
  by_cases hclosing : s.previous = .closing
  · rw [if_pos hclosing, if_pos hclosing]
    rfl
  · rw [if_neg hclosing, if_neg hclosing]
    cases Number.ofText? text.toList <;> rfl

theorem acceptName_moved (s : State) (name : String) :
    (s.moved f).acceptName name = (s.acceptName name).map (State.moved f) := by
  rw [acceptName, acceptName, previous_moved, product_moved]
  by_cases hclosing : s.previous = .closing
  · rw [if_pos hclosing, if_pos hclosing]
    rfl
  · rw [if_neg hclosing, if_neg hclosing]
    cases s.product.unknown <;> rfl

theorem acceptStar_moved (s : State) :
    (s.moved f).acceptStar = s.acceptStar.map (State.moved f) := by
  rw [acceptStar, acceptStar, previous_moved]
  split <;> rfl

theorem acceptOpening_moved (s : State) (column : Nat) :
    (s.moved f).acceptOpening (f column) = (s.acceptOpening column).map (State.moved f) := by
  rw [acceptOpening, acceptOpening, previous_moved]
  split <;> rfl

theorem acceptClosing_moved (s : State) :
    (s.moved f).acceptClosing = s.acceptClosing.map (State.moved f) := by
  rw [acceptClosing, acceptClosing, previous_moved, store_moved]
  obtain ⟨groups, product, pending, form, previous⟩ := s.store
  -- The multiplier is then that of the group around, if there is one.
  rcases groups with _ | ⟨g, _ | ⟨around, outer⟩⟩ <;> cases s.previous <;> rfl

/-- A token is accepted in all columns alike. -/
theorem accept_moved (s : State) (t : Token) :
    (s.moved f).accept (t.moved f) = (s.accept t).map (State.moved f) := by
  obtain ⟨lexeme, column⟩ := t
  cases lexeme with
  | name text => exact s.acceptName_moved text
  | number text => exact s.acceptNumber_moved text
  | plus => exact s.acceptSign_moved _ false
  | minus => exact s.acceptSign_moved _ true
  | star => exact s.acceptStar_moved
  | opening => exact s.acceptOpening_moved column
  | closing => exact s.acceptClosing_moved
  | equals => rfl

theorem finish_moved (s : State) (column : Nat) :
    (s.moved f).finish (f column) = (s.finish column).mapError (Defect.moved f) := by
  have hgroups : (s.moved f).groups = s.groups.map (Group.moved f) := rfl
  rw [finish, finish, previous_moved, hgroups, store_moved]
  cases s.previous <;> cases s.groups <;> rfl

end State

theorem readFrom_moved (ending : Ending) (s : State) (ts : List Token) :
    readFrom (ending.moved f) (s.moved f) (ts.map (Token.moved f)) =
      Prod.map (Except.mapError (Defect.moved f)) (List.map (Token.moved f))
        (readFrom ending s ts) := by
  induction ts generalizing s with
  | nil =>
      rw [List.map_nil, readFrom, readFrom, ending.defect?_moved, ending.column_moved,
        s.finish_moved]
      cases ending.defect? <;> rfl
  | cons t rest ih =>
      have hlexeme : (t.moved f).lexeme = t.lexeme := rfl
      have hcolumn : (t.moved f).column = f t.column := rfl
      have hscan : (⟨rest.map (Token.moved f), ending.moved f⟩ : Scan).defect? =
          (⟨rest, ending⟩ : Scan).defect?.map (Defect.moved f) :=
        Scan.defect?_moved ⟨rest, ending⟩
      rw [List.map_cons, readFrom, readFrom, hlexeme, hcolumn, s.finish_moved, s.accept_moved,
        hscan]
      by_cases hequals : t.lexeme = .equals
      · rw [if_pos hequals, if_pos hequals]
        rfl
      · rw [if_neg hequals, if_neg hequals]
        cases s.accept t with
        | error cause => rfl
        | ok after =>
            cases (⟨rest, ending⟩ : Scan).defect? with
            | some defect => rfl
            | none => exact ih after

theorem read_moved (s : Scan) :
    read (s.moved f) = Prod.map (Except.mapError (Defect.moved f)) (Scan.moved f) (read s) := by
  have hrun : readFrom (s.moved f).ending .initial (s.moved f).tokens =
      Prod.map (Except.mapError (Defect.moved f)) (List.map (Token.moved f))
        (readFrom s.ending .initial s.tokens) :=
    readFrom_moved s.ending .initial s.tokens
  rw [read, read, hrun]
  rfl

end Side

namespace Sides

theorem passEquals_moved (s : Scan) : passEquals (s.moved f) =
    ((passEquals s).map (Scan.moved f)).mapError (Defect.moved f) := by
  obtain ⟨_ | ⟨t, rest⟩, ending⟩ := s
  · have hcolumn : (⟨[], ending.moved f⟩ : Scan).column = f (⟨[], ending⟩ : Scan).column :=
      ending.column_moved
    simp only [Scan.moved, passEquals, List.map_nil, hcolumn]
    rfl
  · have hdefect : (⟨rest.map (Token.moved f), ending.moved f⟩ : Scan).defect? =
        (⟨rest, ending⟩ : Scan).defect?.map (Defect.moved f) :=
      Scan.defect?_moved ⟨rest, ending⟩
    simp only [Scan.moved, passEquals, List.map_cons, hdefect]
    cases (⟨rest, ending⟩ : Scan).defect? <;> rfl

/-- An equation is read in all columns alike. -/
theorem read_moved (s : Scan) :
    read (s.moved f) = Prod.map (Except.mapError (Defect.moved f)) (Scan.moved f) (read s) := by
  rw [read, read, Side.read_moved]
  cases Side.read s with
  | mk left middle =>
      cases left with
      | error defect => rfl
      | ok left =>
          simp only [Prod.map, Except.mapError, passEquals_moved]
          cases passEquals middle with
          | error defect => rfl
          | ok after =>
              simp only [Except.map, Side.read_moved]
              cases Side.read after with
              | mk right rest =>
                  cases right with
                  | error defect => rfl
                  | ok right =>
                      simp only [Prod.map, Except.mapError, rest.column_moved]
                      cases htokens : rest.tokens <;> simp [Scan.moved, htokens, Defect.moved]

end Sides

/-! ## Texts without blanks -/

namespace Text

/-- The text without its blanks. -/
def withoutBlanks (text : String) : String := String.ofList (text.toList.filter fun c => !isBlank c)

/-- How many characters before the given column are blanks. -/
def blanksBelow (text : String) (column : Nat) : Nat :=
  (text.toList.take (column - 1)).countP isBlank

/-- Without blanks, each mark is moved to the left by the blanks before it. -/
theorem map_marksFrom {l : List Char} {column start : Nat}
    (h : ∀ i, f (column + i) + (l.take i).countP isBlank = start + i) :
    (marksFrom column l).map (Mark.moved f) = marksFrom start (l.filter fun c => !isBlank c) := by
  induction l generalizing column start with
  | nil => rfl
  | cons c rest ih =>
      have hnext : ∀ i, f (column + 1 + i) + ((c :: rest).take (i + 1)).countP isBlank =
          start + (i + 1) := by
        intro i
        rw [Nat.add_right_comm, Nat.add_assoc]
        exact h (i + 1)
      cases hblank : isBlank c with
      | true =>
          have hrest : ∀ i, f (column + 1 + i) + (rest.take i).countP isBlank = start + i := by
            intro i
            have hcount := hnext i
            rw [List.take_succ_cons, List.countP_cons_of_pos hblank] at hcount
            omega
          rw [marksFrom_of_blank column rest hblank, List.filter_cons_of_neg (by simp [hblank])]
          exact ih hrest
      | false =>
          have hfirst : f column = start := by simpa using h 0
          have hrest : ∀ i, f (column + 1 + i) + (rest.take i).countP isBlank = start + 1 + i := by
            intro i
            have hcount := hnext i
            rw [List.take_succ_cons, List.countP_cons_of_neg (by simp [hblank])] at hcount
            omega
          rw [marksFrom_of_not_blank column rest hblank, List.filter_cons_of_pos (by simp [hblank]),
            marksFrom_of_not_blank start _ hblank, List.map_cons, ih hrest, Mark.moved, hfirst]

/-- The column without the blanks, of a column with them. -/
def columnWithoutBlanks (text : String) (column : Nat) : Nat := column - blanksBelow text column

theorem columnWithoutBlanks_add (text : String) (i : Nat) :
    columnWithoutBlanks text (1 + i) + (text.toList.take i).countP isBlank = 1 + i := by
  have hle : (text.toList.take i).countP isBlank ≤ i :=
    Nat.le_trans List.countP_le_length (List.length_take_le i _)
  rw [columnWithoutBlanks, blanksBelow, Nat.add_sub_cancel_left]
  omega

theorem stripped_withoutBlanks (text : String) : (Cursor.ofText (withoutBlanks text)).stripped =
    (Cursor.ofText text).stripped.moved (columnWithoutBlanks text) := by
  have hmarks := map_marksFrom (columnWithoutBlanks_add text)
  have hfinish : columnWithoutBlanks text (text.toList.length + 1) =
      (text.toList.filter fun c => !isBlank c).length + 1 := by
    have hlast := columnWithoutBlanks_add text text.toList.length
    have hsplit : text.toList.length = text.toList.countP isBlank +
        (text.toList.filter fun c => !isBlank c).length := by
      rw [List.length_eq_countP_add_countP isBlank, ← List.countP_eq_length_filter]
      simp
    rw [List.take_length, Nat.add_comm 1] at hlast
    omega
  rw [Cursor.ofText, Cursor.ofText, Cursor.stripped, Cursor.stripped, Stripped.moved,
    withoutBlanks, String.toList_ofList, hmarks, hfinish]

theorem scan_withoutBlanks (text : String) :
    scan (withoutBlanks text) = (scan text).moved (columnWithoutBlanks text) :=
  Cursor.scan_moved (stripped_withoutBlanks text)

end Text

/-! ## Equations -/

namespace Sides

theorem ofText_withoutBlanks (text : String) : ofText (withoutBlanks text) =
    (ofText text).mapError (Defect.moved (columnWithoutBlanks text)) := by
  rw [ofText, ofText, scan_withoutBlanks, read_moved]
  rfl

/-- **Blanks have no meaning.** An equation is read from a text exactly if it is read from the
text without its blanks. If there is an error, it is the same without the blanks, and stands as
many columns further to the left as there are blanks before it. -/
theorem ofText_ignores_blanks (place : Nat) (text : String) :
    (∀ sides, (ofText text).mapError (Error.malformed place) = .ok sides ↔
      (ofText (withoutBlanks text)).mapError (Error.malformed place) = .ok sides) ∧
    ∀ error, (ofText text).mapError (Error.malformed place) = .error error →
      ∃ column cause, error = .malformed place ⟨column, cause⟩ ∧
        (ofText (withoutBlanks text)).mapError (Error.malformed place) =
          .error (.malformed place ⟨column - blanksBelow text column, cause⟩) := by
  rw [ofText_withoutBlanks]
  cases ofText text with
  | ok sides => exact ⟨fun _ => Iff.rfl, nofun⟩
  | error defect =>
      refine ⟨fun sides => ⟨nofun, nofun⟩, fun error herror => ?_⟩
      exact ⟨defect.column, defect.cause, (Except.error.inj herror).symm, rfl⟩

/-- The parenthesis is in column five of the one text, and in column three of the other. -/
example : ofText "x = ( 1 2" = .error ⟨5, .unclosedOpening⟩ ∧
    ofText (withoutBlanks "x = ( 1 2") = .error ⟨3, .unclosedOpening⟩ := by
  decide +kernel

end Sides

end LinearSystems
