import LinearSystems.Text.Cursor

/-!
# Texts without their blanks

What counts of a text are its marks, the characters that are no blanks, each in its column, and
the column after its last character. They alone decide which token a cursor reads next and
what is left after it, wherever blanks are skipped for that and however far the cursor looks
ahead.

* `Stripped`, `Cursor.stripped`: what is left of a text without its blanks.
* `Cursor.exists_skipBlanks`, `Cursor.takeRun_eq`: skipping in place, as seen without the blanks.
* `Cursor.next_of_finished`, `Cursor.next_of_sign`, `Cursor.next_of_number`,
  `Cursor.next_of_name`, `Cursor.next_of_unexpected`: the next token, by the marks.
* `leading?`, `Cursor.next_of_marks`: the same for all kinds of tokens at once.
-/

namespace LinearSystems.Text

/-! ## Characters that are no blanks -/

theorem toNat_of_isAlpha {c : Char} (h : c.isAlpha = true) :
    65 ≤ c.toNat ∧ c.toNat ≤ 90 ∨ 97 ≤ c.toNat ∧ c.toNat ≤ 122 := by
  rcases Bool.or_eq_true_iff.mp h with h | h
  · have hbounds : 'A'.val ≤ c.val ∧ c.val ≤ 'Z'.val := of_decide_eq_true h
    exact Or.inl ⟨UInt32.le_iff_toNat_le.mp hbounds.1, UInt32.le_iff_toNat_le.mp hbounds.2⟩
  · obtain ⟨hlow, hhigh⟩ := Bool.and_eq_true_iff.mp h
    exact Or.inr ⟨UInt32.le_iff_toNat_le.mp (of_decide_eq_true hlow),
      UInt32.le_iff_toNat_le.mp (of_decide_eq_true hhigh)⟩

theorem isDigit_of_isAlpha {c : Char} (h : c.isAlpha = true) : c.isDigit = false := by
  rw [Bool.eq_false_iff, ne_eq, Char.isDigit_iff_toNat]
  have hbounds := toNat_of_isAlpha h
  simp only [Char.reduceToNat]
  omega

theorem isBlank_of_isAlphanum {c : Char} (h : c.isAlphanum = true) : isBlank c = false := by
  have hbounds : c.toNat ≤ 122 ∧ 48 ≤ c.toNat := by
    rcases Bool.or_eq_true_iff.mp h with h | h
    · have := toNat_of_isAlpha h
      omega
    · have := Char.isDigit_iff_toNat.mp h
      simp only [Char.reduceToNat] at this
      omega
  simp only [isBlank, Bool.or_eq_false_iff, Bool.and_eq_false_iff, decide_eq_false_iff_not,
    beq_eq_false_iff_ne]
  omega

theorem isBlank_of_continuesName {c : Char} (h : Lexeme.continuesName c = true) :
    isBlank c = false :=
  isBlank_of_isAlphanum h

theorem isBlank_of_continuesNumber {c : Char} (h : Lexeme.continuesNumber c = true) :
    isBlank c = false := by
  simp only [Lexeme.continuesNumber, Lexeme.startsNumber, Bool.or_eq_true, beq_iff_eq] at h
  rcases h with ((hdigit | rfl) | rfl) | rfl
  · exact isBlank_of_isAlphanum (by rw [Char.isAlphanum, hdigit, Bool.or_true])
  all_goals rfl

/-! ## Characters of a kind -/

namespace Lexeme

theorem ofSign?_of_startsNumber {c : Char} (h : startsNumber c = true) : ofSign? c = none := by
  unfold ofSign?
  split <;> first | rfl | cases h

theorem ofSign?_of_startsName {c : Char} (h : startsName c = true) : ofSign? c = none := by
  unfold ofSign?
  split <;> first | rfl | cases h

/-- A number does not go on with the start of a name. -/
theorem continuesNumber_of_startsName {c : Char} (h : startsName c = true) :
    continuesNumber c = false := by
  have hne : ∀ d : Char, d.isAlpha = false → (c == d) = false := by
    intro d hd
    apply beq_eq_false_iff_ne.mpr
    rintro rfl
    rw [startsName, hd] at h
    cases h
  rw [continuesNumber, startsNumber, isDigit_of_isAlpha h, hne '.' rfl, hne ',' rfl, hne '/' rfl]
  rfl

theorem startsNumber_of_startsName {c : Char} (h : startsName c = true) :
    startsNumber c = false :=
  (Bool.or_eq_false_iff.mp (continuesNumber_of_startsName h)).1

end Lexeme

/-! ## Marks -/

/-- A character and the column it stands in. -/
structure Mark where
  char : Char
  column : Nat

/-- What is left of a text without its blanks: its marks, and the column after its last
character. -/
structure Stripped where
  marks : List Mark
  finish : Nat

/-- The marks of the characters of a text from a column on. -/
def marksFrom : Nat → List Char → List Mark
  | _, [] => []
  | column, c :: rest =>
    if isBlank c then marksFrom (column + 1) rest
    else ⟨c, column⟩ :: marksFrom (column + 1) rest

section Marks

variable {c : Char} (column : Nat) (rest : List Char)

theorem marksFrom_of_blank (h : isBlank c = true) :
    marksFrom column (c :: rest) = marksFrom (column + 1) rest :=
  if_pos h

theorem marksFrom_of_not_blank (h : isBlank c = false) :
    marksFrom column (c :: rest) = ⟨c, column⟩ :: marksFrom (column + 1) rest :=
  if_neg (Bool.eq_false_iff.mp h)

theorem marksFrom_chars (l : List Char) :
    (marksFrom column l).map Mark.char = l.filter fun c => !isBlank c := by
  induction l generalizing column with
  | nil => rfl
  | cons c rest ih =>
      cases hblank : isBlank c with
      | true =>
          rw [marksFrom_of_blank column rest hblank, ih, List.filter_cons_of_neg (by simp [hblank])]
      | false =>
          rw [marksFrom_of_not_blank column rest hblank, List.map_cons, ih,
            List.filter_cons_of_pos (by simp [hblank])]

end Marks

/-- The text of the mark `m` and of all marks after it that `continues` accepts. -/
def runText (continues : Char → Bool) (m : Mark) (marks : List Mark) : String :=
  String.ofList (m.char :: (marks.takeWhile (continues ·.char)).map Mark.char)

namespace Cursor

/-- What a cursor has before it, without the blanks. -/
def stripped (p : Cursor) : Stripped := ⟨marksFrom p.column p.rest, p.rest.length + p.column⟩

/-! ## Blanks skipped in place -/

theorem skipBlanks_of_nil {column : Nat} {l : List Char} (h : marksFrom column l = []) :
    skipBlanks column l = ⟨l.length + column, []⟩ := by
  induction l generalizing column with
  | nil => rw [skipBlanks, List.length_nil, Nat.zero_add]
  | cons c rest ih =>
      cases hblank : isBlank c with
      | true =>
          rw [marksFrom_of_blank column rest hblank] at h
          rw [skipBlanks, if_pos hblank, ih h, List.length_cons, Nat.add_right_comm, Nat.add_assoc]
      | false =>
          rw [marksFrom_of_not_blank column rest hblank] at h
          cases h

theorem exists_skipBlanks {column : Nat} {l : List Char} {m : Mark} {marks : List Mark}
    (h : marksFrom column l = m :: marks) :
    ∃ rest, skipBlanks column l = ⟨m.column, m.char :: rest⟩ ∧
      stripped ⟨m.column + 1, rest⟩ = ⟨marks, l.length + column⟩ := by
  induction l generalizing column with
  | nil => cases h
  | cons c rest ih =>
      have hlength : (c :: rest).length + column = rest.length + (column + 1) := by
        rw [List.length_cons]
        omega
      cases hblank : isBlank c with
      | true =>
          rw [marksFrom_of_blank column rest hblank] at h
          rw [skipBlanks, if_pos hblank, hlength]
          exact ih h
      | false =>
          rw [marksFrom_of_not_blank column rest hblank] at h
          obtain ⟨rfl, rfl⟩ := List.cons.inj h
          rw [skipBlanks, if_neg (Bool.eq_false_iff.mp hblank), hlength]
          exact ⟨rest, rfl, rfl⟩

section Run

variable {accepts : Char → Bool} {c : Char}

theorem goesOn_of_blank (rest : List Char) (h : isBlank c = true) :
    goesOn accepts (c :: rest) = goesOn accepts rest := by
  rw [goesOn, List.find?_cons_of_neg (by simp [h]), goesOn]

theorem goesOn_of_not_blank (rest : List Char) (h : isBlank c = false) :
    goesOn accepts (c :: rest) = accepts c := by
  rw [goesOn, List.find?_cons_of_pos (by simp [h]), Option.any_some]

/-- If the next character that is no blank is not accepted, then no mark is. -/
theorem takeWhile_of_not_goesOn (column : Nat) {l : List Char} (h : goesOn accepts l = false) :
    (marksFrom column l).takeWhile (accepts ·.char) = [] ∧
      (marksFrom column l).dropWhile (accepts ·.char) = marksFrom column l := by
  induction l generalizing column with
  | nil => exact ⟨rfl, rfl⟩
  | cons c rest ih =>
      cases hblank : isBlank c with
      | true =>
          rw [goesOn_of_blank rest hblank] at h
          rw [marksFrom_of_blank column rest hblank]
          exact ih (column + 1) h
      | false =>
          rw [goesOn_of_not_blank rest hblank] at h
          rw [marksFrom_of_not_blank column rest hblank]
          simp [h]

/-- A run takes the marks that are accepted and leaves the others, if no blank is accepted. -/
theorem takeRun_eq (h : ∀ c, accepts c = true → isBlank c = false) (column : Nat) (l : List Char) :
    (takeRun accepts column l).1 =
        ((marksFrom column l).takeWhile (accepts ·.char)).map Mark.char ∧
      (takeRun accepts column l).2.stripped =
        ⟨(marksFrom column l).dropWhile (accepts ·.char), l.length + column⟩ := by
  induction l generalizing column with
  | nil => exact ⟨rfl, rfl⟩
  | cons c rest ih =>
      obtain ⟨htext, hafter⟩ := ih (column + 1)
      have hlength : rest.length + (column + 1) = (c :: rest).length + column := by
        rw [List.length_cons]
        omega
      rw [hlength] at hafter
      rw [takeRun]
      by_cases haccepts : accepts c = true
      · rw [if_pos haccepts, marksFrom_of_not_blank column rest (h c haccepts),
          List.takeWhile_cons_of_pos (p := fun m : Mark => accepts m.char) haccepts,
          List.dropWhile_cons_of_pos (p := fun m : Mark => accepts m.char) haccepts]
        exact ⟨congrArg (c :: ·) htext, hafter⟩
      · rw [if_neg haccepts]
        by_cases hon : (isBlank c && goesOn accepts rest) = true
        · rw [if_pos hon, marksFrom_of_blank column rest (Bool.and_eq_true_iff.mp hon).1]
          exact ⟨htext, hafter⟩
        · have hstop : goesOn accepts (c :: rest) = false := by
            cases hblank : isBlank c with
            | false => rw [goesOn_of_not_blank rest hblank, Bool.eq_false_iff.mpr haccepts]
            | true =>
                rw [goesOn_of_blank rest hblank]
                simpa [hblank] using hon
          obtain ⟨htake, hdrop⟩ := takeWhile_of_not_goesOn column hstop
          rw [if_neg hon, htake, hdrop]
          exact ⟨rfl, rfl⟩

theorem exists_run (h : ∀ c, accepts c = true → isBlank c = false) (haccepts : accepts c = true)
    (column : Nat) (rest : List Char) (lexeme : String → Lexeme) :
    ∃ after, run ⟨column, c :: rest⟩ accepts lexeme =
        (⟨lexeme (runText accepts ⟨c, column⟩ (marksFrom (column + 1) rest)), column⟩, after) ∧
      after.stripped = ⟨(marksFrom (column + 1) rest).dropWhile (accepts ·.char),
        rest.length + (column + 1)⟩ := by
  obtain ⟨htext, hafter⟩ := takeRun_eq h (column + 1) rest
  refine ⟨_, ?_, hafter⟩
  rw [runText, ← htext, run, takeRun, if_pos haccepts]

end Run

/-! ## The next token -/

section Next

variable {p : Cursor} {m : Mark} {marks : List Mark} {finish : Nat}

theorem next_of_finished (h : p.stripped = ⟨[], finish⟩) : p.next = .error (.finished finish) := by
  obtain ⟨hmarks, rfl⟩ := Stripped.mk.inj h
  rw [next, skipBlanks_of_nil hmarks]

variable (h : p.stripped = ⟨m :: marks, finish⟩)

include h

theorem next_of_sign {a : Lexeme} (hsign : Lexeme.ofSign? m.char = some a) :
    ∃ after, p.next = .ok (⟨a, m.column⟩, after) ∧ after.stripped = ⟨marks, finish⟩ := by
  obtain ⟨hmarks, rfl⟩ := Stripped.mk.inj h
  obtain ⟨rest, hfirst, hrest⟩ := exists_skipBlanks hmarks
  refine ⟨_, ?_, hrest⟩
  simp only [next, hfirst, hsign]

theorem next_of_number (hnumber : Lexeme.startsNumber m.char = true) :
    ∃ after, p.next =
        .ok (⟨.number (runText Lexeme.continuesNumber m marks), m.column⟩, after) ∧
      after.stripped = ⟨marks.dropWhile (Lexeme.continuesNumber ·.char), finish⟩ := by
  obtain ⟨hmarks, rfl⟩ := Stripped.mk.inj h
  obtain ⟨rest, hfirst, hrest⟩ := exists_skipBlanks hmarks
  obtain ⟨rfl, hfinish⟩ := Stripped.mk.inj hrest
  obtain ⟨after, hrun, hafter⟩ := exists_run (fun _ => isBlank_of_continuesNumber)
    (Lexeme.continuesNumber_of_startsNumber hnumber) m.column rest .number
  refine ⟨after, ?_, hfinish ▸ hafter⟩
  simp only [next, hfirst, Lexeme.ofSign?_of_startsNumber hnumber, if_pos hnumber, hrun]

theorem next_of_name (hname : Lexeme.startsName m.char = true) :
    ∃ after, p.next = .ok (⟨.name (runText Lexeme.continuesName m marks), m.column⟩, after) ∧
      after.stripped = ⟨marks.dropWhile (Lexeme.continuesName ·.char), finish⟩ := by
  obtain ⟨hmarks, rfl⟩ := Stripped.mk.inj h
  obtain ⟨rest, hfirst, hrest⟩ := exists_skipBlanks hmarks
  obtain ⟨rfl, hfinish⟩ := Stripped.mk.inj hrest
  obtain ⟨after, hrun, hafter⟩ := exists_run (fun _ => isBlank_of_continuesName)
    (Lexeme.continuesName_of_startsName hname) m.column rest .name
  have hnumber : ¬ Lexeme.startsNumber m.char = true :=
    Bool.eq_false_iff.mp (Lexeme.startsNumber_of_startsName hname)
  refine ⟨after, ?_, hfinish ▸ hafter⟩
  simp only [next, hfirst, Lexeme.ofSign?_of_startsName hname, if_neg hnumber, if_pos hname, hrun]

theorem next_of_unexpected (hsign : Lexeme.ofSign? m.char = none)
    (hnumber : Lexeme.startsNumber m.char = false) (hname : Lexeme.startsName m.char = false) :
    p.next = .error (.unexpected m.char m.column) := by
  obtain ⟨rest, hfirst, -⟩ := exists_skipBlanks (Stripped.mk.inj h).1
  simp only [next, hfirst, hsign, if_neg (Bool.eq_false_iff.mp hnumber),
    if_neg (Bool.eq_false_iff.mp hname)]

end Next

end Cursor

/-! ## The leading lexeme -/

open Lexeme

/-- The lexeme that starts with the mark `m`, and the marks after it. -/
def leading? (m : Mark) (marks : List Mark) : Option (Lexeme × List Mark) :=
  match ofSign? m.char with
  | some a => some (a, marks)
  | none =>
    if startsNumber m.char then
      some (.number (runText continuesNumber m marks), marks.dropWhile (continuesNumber ·.char))
    else if startsName m.char then
      some (.name (runText continuesName m marks), marks.dropWhile (continuesName ·.char))
    else none

variable {p after : Cursor} {t : Token} {m : Mark} {marks left : List Mark} {a : Lexeme}
  {finish : Nat}

/-- The three ways for a lexeme to lead. -/
theorem leading?_eq_some_iff : leading? m marks = some (a, left) ↔
    (ofSign? m.char = some a ∧ left = marks) ∨
    (startsNumber m.char = true ∧ a = .number (runText continuesNumber m marks) ∧
      left = marks.dropWhile (continuesNumber ·.char)) ∨
    (startsName m.char = true ∧ a = .name (runText continuesName m marks) ∧
      left = marks.dropWhile (continuesName ·.char)) := by
  unfold leading?
  cases hsign : ofSign? m.char with
  | some b =>
      have hnumber : startsNumber m.char ≠ true := fun h => by
        cases hsign.symm.trans (ofSign?_of_startsNumber h)
      have hname : startsName m.char ≠ true := fun h => by
        cases hsign.symm.trans (ofSign?_of_startsName h)
      simp [hnumber, hname, eq_comm]
  | none =>
      by_cases hnumber : startsNumber m.char = true
      · have hname : startsName m.char ≠ true := fun h => by
          cases hnumber.symm.trans (startsNumber_of_startsName h)
        simp [hnumber, hname, eq_comm]
      · by_cases hname : startsName m.char = true
        · simp [hnumber, hname, eq_comm]
        · simp [hnumber, hname]

namespace Cursor

/-- The next token, by the marks. -/
theorem next_of_marks (h : p.stripped = ⟨m :: marks, finish⟩) :
    (∃ a left after, leading? m marks = some (a, left) ∧ p.next = .ok (⟨a, m.column⟩, after) ∧
      after.stripped = ⟨left, finish⟩) ∨
    leading? m marks = none ∧ p.next = .error (.unexpected m.char m.column) := by
  unfold leading?
  cases hsign : ofSign? m.char with
  | some a =>
      obtain ⟨after, hnext, hafter⟩ := next_of_sign h hsign
      exact Or.inl ⟨a, marks, after, rfl, hnext, hafter⟩
  | none =>
      cases hnumber : startsNumber m.char with
      | true =>
          obtain ⟨after, hnext, hafter⟩ := next_of_number h hnumber
          exact Or.inl ⟨_, _, after, rfl, hnext, hafter⟩
      | false =>
          cases hname : startsName m.char with
          | true =>
              obtain ⟨after, hnext, hafter⟩ := next_of_name h hname
              exact Or.inl ⟨_, _, after, rfl, hnext, hafter⟩
          | false => exact Or.inr ⟨rfl, next_of_unexpected h hsign hnumber hname⟩

theorem exists_leading?_of_next (h : p.next = .ok (t, after)) :
    ∃ m marks, p.stripped = ⟨m :: marks, p.stripped.finish⟩ ∧ t.column = m.column ∧
      leading? m marks = some (t.lexeme, after.stripped.marks) ∧
      after.stripped.finish = p.stripped.finish := by
  rcases hp : p.stripped with ⟨marks, finish⟩
  cases marks with
  | nil =>
      rw [next_of_finished hp] at h
      cases h
  | cons m marks =>
      rcases next_of_marks hp with ⟨a, left, after', hlead, hnext, hafter⟩ | ⟨-, hnext⟩
      · cases hnext.symm.trans h
        refine ⟨m, marks, rfl, rfl, ?_, ?_⟩
        · rw [hafter, hlead]
        · rw [hafter]
      · cases hnext.symm.trans h

end Cursor

end LinearSystems.Text
