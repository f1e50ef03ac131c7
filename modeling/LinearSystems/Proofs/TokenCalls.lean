import LinearSystems.Proofs.ScanPrefixes

/-!
# Calls for tokens

A scanner is called for one token after the other. A call passes some characters of the text, the
blanks before its token and those inside it included, and the token is made of the others. So
nothing of a text gets lost, and the columns are those of the text. A call that gives no token
passes the blanks only, so that all further calls give the same again.

* `StartsToken`: the characters that tokens start with.
* `Cursor.Passes`: a cursor passes characters.
* `Cursor.next_eq_finished_iff`, `Cursor.next_eq_unexpected_iff`: why there is no further token.
* `Cursor.call`, `Cursor.afterCalls`: what a call gives, and where it leaves the cursor.
* `Lexes`, `scan_lexes`: all calls in a text.
-/

namespace LinearSystems.Text

open Lexeme

/-! ## Characters -/

/-- Some name, number or sign starts with the character. -/
def StartsToken (c : Char) : Prop := ∃ a : Lexeme, a.IsProper ∧ c ∈ a.chars.head?

theorem startsToken_iff {c : Char} : StartsToken c ↔
    (ofSign? c).isSome = true ∨ startsNumber c = true ∨ startsName c = true := by
  constructor
  · rintro ⟨a, hproper, hhead⟩
    rcases a.cases_sign with ⟨text, rfl⟩ | ⟨text, rfl⟩ | ⟨d, hchars, hsign⟩
    · obtain ⟨d, rest, hchars, hd, -⟩ := hproper
      obtain rfl : d = c := by simpa [hchars] using hhead
      exact Or.inr (Or.inr hd)
    · obtain ⟨d, rest, hchars, hd, -⟩ := hproper
      obtain rfl : d = c := by simpa [hchars] using hhead
      exact Or.inr (Or.inl hd)
    · obtain rfl : d = c := by simpa [hchars] using hhead
      exact Or.inl (by rw [hsign]; rfl)
  · intro h
    obtain ⟨a, left, hlead⟩ : ∃ a left, leading? ⟨c, 1⟩ [] = some (a, left) := by
      rcases h with hsign | hnumber | hname
      · obtain ⟨a, ha⟩ := Option.isSome_iff_exists.mp hsign
        exact ⟨a, [], leading?_eq_some_iff.mpr (Or.inl ⟨ha, rfl⟩)⟩
      · exact ⟨_, _, leading?_eq_some_iff.mpr (Or.inr (Or.inl ⟨hnumber, rfl, rfl⟩))⟩
      · exact ⟨_, _, leading?_eq_some_iff.mpr (Or.inr (Or.inr ⟨hname, rfl, rfl⟩))⟩
    exact ⟨a, Cursor.isProper_of_leading? hlead⟩

instance (c : Char) : Decidable (StartsToken c) := decidable_of_iff _ startsToken_iff.symm

/-- A slash can only stand inside a number. -/
example : ¬ StartsToken '/' := by decide

theorem leading?_eq_none_iff {m : Mark} {marks : List Mark} :
    leading? m marks = none ↔ ¬ StartsToken m.char := by
  rw [startsToken_iff, leading?]
  cases ofSign? m.char with
  | some a => simp
  | none => cases startsNumber m.char <;> cases startsName m.char <;> simp

/-- A number does not come right after a number, nor a name after a name, nor a digit after a
name. -/
structure Lexeme.MayPrecede (a b : Lexeme) : Prop where
  not_names : ∀ x y, a = name x → b ≠ name y
  not_numbers : ∀ x y, a = number x → b ≠ number y
  not_digit : ∀ x y, a = name x → b = number y → ∀ c ∈ y.toList.head?, c.isDigit = false

theorem Lexeme.Parts.mayPrecede {a b : Lexeme} (h : a.Parts b) (hb : b.IsProper) :
    a.MayPrecede b where
  not_names := by
    rintro x y rfl rfl
    obtain ⟨c, rest, hchars, hc, -⟩ := hb
    have hstop : continuesName c = false := h c (by rw [hchars]; rfl)
    rw [continuesName_of_startsName hc] at hstop
    cases hstop
  not_numbers := by
    rintro x y rfl rfl
    obtain ⟨c, rest, hchars, hc, -⟩ := hb
    have hstop : continuesNumber c = false := h c (by rw [hchars]; rfl)
    rw [continuesNumber_of_startsNumber hc] at hstop
    cases hstop
  not_digit := by
    rintro x y rfl rfl c hc
    have hstop : continuesName c = false := h c hc
    exact (Bool.or_eq_false_iff.mp hstop).2

/-- A text starts with blanks, or without any. -/
theorem exists_blanks (l : List Char) : ∃ blanks rest, l = blanks ++ rest ∧
    (∀ b ∈ blanks, isBlank b = true) ∧ ∀ c ∈ rest.head?, isBlank c = false :=
  ⟨l.takeWhile isBlank, l.dropWhile isBlank, List.takeWhile_append_dropWhile.symm,
    fun _ hb => List.mem_takeWhile_imp hb, fun _ hc => eq_false_of_mem_head?_dropWhile hc⟩

theorem forall_isBlank_or (l : List Char) : (∀ b ∈ l, isBlank b = true) ∨ ∃ blanks c y,
    l = blanks ++ c :: y ∧ (∀ b ∈ blanks, isBlank b = true) ∧ isBlank c = false := by
  obtain ⟨blanks, rest, rfl, hblanks, hhead⟩ := exists_blanks l
  cases rest with
  | nil => exact Or.inl (by rwa [List.append_nil])
  | cons c y => exact Or.inr ⟨blanks, c, y, rfl, hblanks, hhead c rfl⟩

theorem filter_blanks {blanks : List Char} (h : ∀ b ∈ blanks, isBlank b = true) :
    blanks.filter (fun c => !isBlank c) = [] := by
  rw [List.filter_eq_nil_iff]
  intro b hb
  simp [h b hb]

theorem marksFrom_of_blanks (column : Nat) {blanks : List Char}
    (h : ∀ b ∈ blanks, isBlank b = true) (l : List Char) :
    marksFrom column (blanks ++ l) = marksFrom (column + blanks.length) l := by
  have hnone : marksFrom column blanks = [] := by
    apply List.map_eq_nil_iff.mp
    rw [marksFrom_chars, filter_blanks h]
  rw [marksFrom_append, hnone, List.nil_append]

/-- What is passed on the way through a token, without the blanks. -/
theorem filter_passed {blanks x : List Char} {c : Char} (hblanks : ∀ b ∈ blanks, isBlank b = true)
    (hc : isBlank c = false) : (blanks ++ c :: x).filter (fun c => !isBlank c) =
      c :: x.filter fun c => !isBlank c := by
  rw [List.filter_append, filter_blanks hblanks, List.nil_append,
    List.filter_cons_of_pos (by simp [hc])]

namespace Cursor

variable {p q r after : Cursor} {x y blanks : List Char} {c : Char} {column : Nat} {t : Token}
  {ending : Ending}

/-! ## Passing characters -/

/-- The characters `x` come next at the one cursor, and the other one stands after them. -/
structure Passes (p : Cursor) (x : List Char) (q : Cursor) : Prop where
  rest_eq : p.rest = x ++ q.rest
  column_eq : q.column = p.column + x.length

theorem Passes.refl (p : Cursor) : p.Passes [] p := ⟨rfl, rfl⟩

theorem Passes.trans (hx : p.Passes x q) (hy : q.Passes y r) : p.Passes (x ++ y) r where
  rest_eq := by rw [hx.rest_eq, hy.rest_eq, List.append_assoc]
  column_eq := by rw [hy.column_eq, hx.column_eq, List.length_append, Nat.add_assoc]

theorem Passes.finish_eq (h : p.Passes x q) :
    q.column + q.rest.length = p.column + p.rest.length := by
  rw [h.column_eq, h.rest_eq, List.length_append, Nat.add_assoc]

theorem passes_cons (column : Nat) (c : Char) (rest : List Char) :
    Passes ⟨column, c :: rest⟩ [c] ⟨column + 1, rest⟩ :=
  ⟨rfl, rfl⟩

/-- Before a character that is no blank there are none to skip. -/
theorem skipBlanks_of_head (h : ∀ c ∈ p.rest.head?, isBlank c = false) :
    skipBlanks p.column p.rest = p := by
  obtain ⟨column, l⟩ := p
  cases l with
  | nil => rfl
  | cons c l => exact if_neg (Bool.eq_false_iff.mp (h c rfl))

theorem skipBlanks_append (column : Nat) (h : ∀ b ∈ blanks, isBlank b = true) {l : List Char}
    (hl : ∀ c ∈ l.head?, isBlank c = false) :
    skipBlanks column (blanks ++ l) = ⟨column + blanks.length, l⟩ := by
  induction blanks generalizing column with
  | nil => exact skipBlanks_of_head (p := ⟨column, l⟩) hl
  | cons b blanks ih =>
      rw [List.forall_mem_cons] at h
      rw [List.cons_append, skipBlanks, if_pos h.1, ih (column + 1) h.2, List.length_cons,
        Nat.add_assoc, Nat.add_comm 1]

theorem exists_passes_skipBlanks (p : Cursor) : ∃ blanks, (∀ b ∈ blanks, isBlank b = true) ∧
    p.Passes blanks (skipBlanks p.column p.rest) ∧
      ∀ c ∈ (skipBlanks p.column p.rest).rest.head?, isBlank c = false := by
  obtain ⟨blanks, rest, hrest, hblanks, hhead⟩ := exists_blanks p.rest
  have hskip : skipBlanks p.column p.rest = ⟨p.column + blanks.length, rest⟩ := by
    rw [hrest, skipBlanks_append p.column hblanks hhead]
  rw [hskip]
  exact ⟨blanks, hblanks, ⟨hrest, rfl⟩, hhead⟩

/-- The next token is the same with the blanks before it passed. -/
theorem next_skipBlanks (p : Cursor) : (skipBlanks p.column p.rest).next = p.next := by
  obtain ⟨blanks, -, -, hhead⟩ := exists_passes_skipBlanks p
  rw [next, next, skipBlanks_of_head hhead]

section Run

variable {accepts : Char → Bool} (haccepts : ∀ c, accepts c = true → isBlank c = false)

include haccepts

/-- A run is made of the characters that it passes and that are no blanks. -/
theorem exists_passes_takeRun (column : Nat) (l : List Char) :
    ∃ x, Passes ⟨column, l⟩ x (takeRun accepts column l).2 ∧
      (takeRun accepts column l).1 = x.filter fun c => !isBlank c := by
  induction l generalizing column with
  | nil => exact ⟨[], .refl _, rfl⟩
  | cons c rest ih =>
      obtain ⟨x, hpasses, htext⟩ := ih (column + 1)
      rw [takeRun]
      -- The character is accepted, or a blank inside the run, or the run ends before it.
      split
      · next hc =>
        refine ⟨c :: x, (passes_cons column c rest).trans hpasses, ?_⟩
        rw [List.filter_cons_of_pos (by simp [haccepts c hc]), ← htext]
      · split
        · next hon =>
          refine ⟨c :: x, (passes_cons column c rest).trans hpasses, ?_⟩
          rw [List.filter_cons_of_neg (by simp [(Bool.and_eq_true_iff.mp hon).1]), htext]
        · exact ⟨[], .refl _, rfl⟩

theorem exists_passes_run {lexeme : String → Lexeme}
    (hlexeme : ∀ text, (lexeme text).text = text) {rest : List Char} (hrest : p.rest = c :: rest)
    (hc : accepts c = true) (h : p.run accepts lexeme = (t, after)) :
    ∃ x, p.Passes (c :: x) after ∧ t.column = p.column ∧
      t.lexeme.chars = c :: x.filter fun c => !isBlank c := by
  obtain ⟨column, l⟩ := p
  obtain rfl : l = c :: rest := hrest
  obtain ⟨x, hpasses, htext⟩ := exists_passes_takeRun haccepts (column + 1) rest
  rw [run, takeRun, if_pos hc] at h
  cases h
  refine ⟨x, (passes_cons column c rest).trans hpasses, rfl, ?_⟩
  rw [chars, hlexeme, String.toList_ofList, htext]

end Run

theorem exists_passes_of_next_of_head (hhead : ∀ c ∈ p.rest.head?, isBlank c = false)
    (h : p.next = .ok (t, after)) : ∃ c x, p.Passes (c :: x) after ∧ t.column = p.column ∧
      isBlank c = false ∧ t.lexeme.chars = c :: x.filter fun c => !isBlank c := by
  rw [next, skipBlanks_of_head hhead] at h
  split at h
  · cases h
  · next c rest hrest =>
    have hc : isBlank c = false := hhead c (by rw [hrest]; rfl)
    split at h
    · next a hsign =>
      cases h
      exact ⟨c, [], ⟨hrest, rfl⟩, rfl, hc, chars_of_ofSign? hsign⟩
    · split at h
      · next hstart =>
        obtain ⟨x, hpasses, hcolumn, hchars⟩ := exists_passes_run
          (fun _ => isBlank_of_continuesNumber) (fun _ => rfl) hrest
          (continuesNumber_of_startsNumber hstart) (Except.ok.inj h)
        exact ⟨c, x, hpasses, hcolumn, hc, hchars⟩
      · split at h
        · next hstart =>
          obtain ⟨x, hpasses, hcolumn, hchars⟩ := exists_passes_run
            (fun _ => isBlank_of_continuesName) (fun _ => rfl) hrest
            (continuesName_of_startsName hstart) (Except.ok.inj h)
          exact ⟨c, x, hpasses, hcolumn, hc, hchars⟩
        · cases h

/-- A token starts in its column, after blanks, and is made of what is passed from there on. -/
theorem exists_passes_of_next (h : p.next = .ok (t, after)) : ∃ blanks c x,
    (∀ b ∈ blanks, isBlank b = true) ∧ p.Passes (blanks ++ c :: x) after ∧
      t.column = p.column + blanks.length ∧ isBlank c = false ∧
      t.lexeme.chars = c :: x.filter fun c => !isBlank c := by
  obtain ⟨blanks, hblanks, hpasses, hhead⟩ := exists_passes_skipBlanks p
  rw [← next_skipBlanks] at h
  obtain ⟨c, x, hfirst, hcolumn, hc, hchars⟩ := exists_passes_of_next_of_head hhead h
  exact ⟨blanks, c, x, hblanks, hpasses.trans hfirst, hcolumn.trans hpasses.column_eq, hc, hchars⟩

/-! ## No further token -/

theorem next_of_blanks (h : ∀ b ∈ p.rest, isBlank b = true) :
    p.next = .error (.finished (p.column + p.rest.length)) := by
  apply next_of_finished
  rw [stripped, Nat.add_comm, ← List.append_nil p.rest, marksFrom_of_blanks p.column h]
  simp [marksFrom]

/-- After blanks comes a token, or else a character that starts none. -/
theorem next_of_rest (hrest : p.rest = blanks ++ c :: y) (hblanks : ∀ b ∈ blanks, isBlank b = true)
    (hc : isBlank c = false) :
    (StartsToken c ∧ ∃ t after, p.next = .ok (t, after)) ∨
      ¬ StartsToken c ∧ p.next = .error (.unexpected c (p.column + blanks.length)) := by
  have hp : p.stripped = ⟨⟨c, p.column + blanks.length⟩ ::
      marksFrom (p.column + blanks.length + 1) y, p.stripped.finish⟩ := by
    rw [stripped, hrest, marksFrom_of_blanks p.column hblanks, marksFrom_of_not_blank _ _ hc]
  rcases next_of_marks hp with ⟨a, left, after, hlead, hnext, -⟩ | ⟨hnone, hnext⟩
  · refine Or.inl ⟨?_, _, after, hnext⟩
    exact ⟨a, isProper_of_leading? hlead⟩
  · exact Or.inr ⟨leading?_eq_none_iff.mp hnone, hnext⟩

theorem next_eq_finished_iff : p.next = .error (.finished column) ↔
    (∀ b ∈ p.rest, isBlank b = true) ∧ column = p.column + p.rest.length := by
  constructor
  · intro h
    rcases forall_isBlank_or p.rest with hall | ⟨blanks, c, y, hrest, hblanks, hc⟩
    · rw [next_of_blanks hall] at h
      cases h
      exact ⟨hall, rfl⟩
    · rcases next_of_rest hrest hblanks hc with ⟨-, t, after, hnext⟩ | ⟨-, hnext⟩
      · cases hnext.symm.trans h
      · cases hnext.symm.trans h
  · rintro ⟨h, rfl⟩
    exact next_of_blanks h

theorem next_eq_unexpected_iff : p.next = .error (.unexpected c column) ↔
    ∃ blanks y, p.rest = blanks ++ c :: y ∧ (∀ b ∈ blanks, isBlank b = true) ∧
      isBlank c = false ∧ ¬ StartsToken c ∧ column = p.column + blanks.length := by
  constructor
  · intro h
    rcases forall_isBlank_or p.rest with hall | ⟨blanks, d, y, hrest, hblanks, hd⟩
    · cases (next_of_blanks hall).symm.trans h
    · rcases next_of_rest hrest hblanks hd with ⟨-, t, after, hnext⟩ | ⟨hstart, hnext⟩
      · cases hnext.symm.trans h
      · rw [hnext] at h
        cases h
        exact ⟨blanks, y, hrest, hblanks, hd, hstart, rfl⟩
  · rintro ⟨blanks, y, hrest, hblanks, hc, hstart, rfl⟩
    rcases next_of_rest hrest hblanks hc with ⟨hc, -⟩ | ⟨-, hnext⟩
    · exact absurd hc hstart
    · exact hnext

theorem column_le_of_ending (h : p.next = .error ending) : p.column ≤ ending.column := by
  cases ending with
  | finished column =>
      obtain ⟨-, rfl⟩ := next_eq_finished_iff.mp h
      exact Nat.le_add_right _ _
  | unexpected c column =>
      obtain ⟨-, -, -, -, -, -, rfl⟩ := next_eq_unexpected_iff.mp h
      exact Nat.le_add_right _ _

/-! ## One token after the other -/

/-- A token takes what comes next, but for the blanks. -/
theorem filter_of_next (h : p.next = .ok (t, after)) : p.rest.filter (fun c => !isBlank c) =
    t.lexeme.chars ++ after.rest.filter fun c => !isBlank c := by
  obtain ⟨blanks, c, x, hblanks, hpasses, -, hc, hchars⟩ := exists_passes_of_next h
  rw [hpasses.rest_eq, List.filter_append, filter_passed hblanks hc, hchars]

/-- A token is as long as it can be. -/
theorem continues_of_next (h : p.next = .ok (t, after)) :
    ∀ c ∈ (after.rest.filter fun c => !isBlank c).head?, t.lexeme.continues c = false := by
  intro c hc
  obtain ⟨m, marks, -, -, hlead, -⟩ := exists_leading?_of_next h
  obtain ⟨-, -, hstop, -⟩ := leading?_append hlead
  rw [← marksFrom_chars after.column, List.head?_map, Option.mem_def, Option.map_eq_some_iff] at hc
  obtain ⟨m', hm', rfl⟩ := hc
  exact hstop m' hm'

theorem parts_of_next (h : p.next = .ok (t, after)) {t' : Token} {after' : Cursor}
    (h' : after.next = .ok (t', after')) : t.lexeme.Parts t'.lexeme := by
  intro c hc
  apply continues_of_next h c
  rwa [filter_of_next h', List.head?_append_of_ne_nil _ (isProper_of_next h').chars_ne_nil]

end Cursor

/-- The columns of the tokens, and the one of the ending. -/
def Scan.columns (s : Scan) : List Nat := s.tokens.map Token.column ++ [s.ending.column]

namespace Cursor

variable {p q after : Cursor} {t : Token} {ending : Ending}

theorem columns_scan (p : Cursor) :
    (∀ k ∈ p.scan.columns, p.column ≤ k) ∧ p.scan.columns.Pairwise (· < ·) := by
  induction p using scan.induct with
  | case1 p ending hnext =>
      rw [scan_of_ending hnext]
      simpa [Scan.columns] using column_le_of_ending hnext
  | case2 p t after hnext ih =>
      obtain ⟨blanks, c, x, -, hpasses, hcolumn, -⟩ := exists_passes_of_next hnext
      -- The token takes a character at least, and whatever comes later starts behind it.
      have hafter : t.column < after.column := by
        rw [hpasses.column_eq, hcolumn, List.length_append, List.length_cons]
        omega
      have hfirst : p.column ≤ t.column := hcolumn ▸ Nat.le_add_right _ _
      have hlater : ∀ k ∈ after.scan.columns, t.column < k := by
        intro k hk
        exact Nat.lt_of_lt_of_le hafter (ih.1 k hk)
      rw [scan_of_next hnext]
      refine ⟨?_, List.pairwise_cons.mpr ⟨hlater, ih.2⟩⟩
      intro k hk
      rcases List.mem_cons.mp hk with rfl | hk
      · exact hfirst
      · exact Nat.le_of_lt (Nat.lt_of_le_of_lt hfirst (hlater k hk))

theorem length_scan_le (p : Cursor) : p.scan.tokens.length ≤ p.rest.length := by
  induction p using scan.induct with
  | case1 p ending hnext =>
      rw [scan_of_ending hnext]
      exact Nat.zero_le _
  | case2 p t after hnext ih =>
      rw [scan_of_next hnext]
      exact Nat.lt_of_le_of_lt ih (length_of_next hnext)

/-! ## Calls -/

/-- What a call for the next token gives, and the cursor after it. If there is no token, then the
blanks have been passed in search of it. -/
def call (p : Cursor) : Except Ending Token × Cursor :=
  match p.next with
  | .ok (t, after) => (.ok t, after)
  | .error ending => (.error ending, skipBlanks p.column p.rest)

/-- The cursor after some calls. -/
def afterCalls : Cursor → Nat → Cursor
  | p, 0 => p
  | p, n + 1 => p.call.2.afterCalls n

theorem call_of_next (h : p.next = .ok (t, after)) : p.call = (.ok t, after) := by
  rw [call, h]

theorem call_of_ending (h : p.next = .error ending) :
    p.call = (.error ending, skipBlanks p.column p.rest) := by
  rw [call, h]

theorem fst_call_eq_error_iff : p.call.1 = .error ending ↔ p.next = .error ending := by
  rcases hnext : p.next with found | ⟨t, after⟩
  · rw [call_of_ending hnext]
    simp
  · rw [call_of_next hnext]
    simp

/-- A call takes the first token, if there is one, and never changes the ending. -/
theorem scan_call (p : Cursor) : p.call.2.scan = ⟨p.scan.tokens.drop 1, p.scan.ending⟩ := by
  rcases hnext : p.next with ending | ⟨t, after⟩
  · rw [call_of_ending hnext, scan_of_ending hnext]
    exact scan_of_ending ((next_skipBlanks p).trans hnext)
  · rw [call_of_next hnext, scan_of_next hnext]
    rfl

/-- A call passes the characters of its token, and blanks. -/
theorem exists_passes_call (p : Cursor) : ∃ x, p.Passes x p.call.2 ∧
    x.filter (fun c => !isBlank c) =
      (p.scan.tokens.take 1).flatMap fun t => t.lexeme.chars := by
  rcases hnext : p.next with ending | ⟨t, after⟩
  · obtain ⟨blanks, hblanks, hpasses, -⟩ := exists_passes_skipBlanks p
    rw [call_of_ending hnext, scan_of_ending hnext]
    exact ⟨blanks, hpasses, filter_blanks hblanks⟩
  · obtain ⟨blanks, c, x, hblanks, hpasses, -, hc, hchars⟩ := exists_passes_of_next hnext
    rw [call_of_next hnext, scan_of_next hnext]
    refine ⟨_, hpasses, ?_⟩
    rw [filter_passed hblanks hc, ← hchars, List.take_succ_cons, List.take_zero,
      List.flatMap_singleton]

theorem scan_afterCalls (p : Cursor) (n : Nat) :
    (p.afterCalls n).scan = ⟨p.scan.tokens.drop n, p.scan.ending⟩ := by
  induction n generalizing p with
  | zero => rfl
  | succ n ih => rw [afterCalls, ih, scan_call, List.drop_drop, Nat.add_comm]

/-- What has been passed after some calls, without its blanks, is made of the tokens so far. -/
theorem exists_passes_afterCalls (p : Cursor) (n : Nat) : ∃ x, p.Passes x (p.afterCalls n) ∧
    x.filter (fun c => !isBlank c) =
      (p.scan.tokens.take n).flatMap fun t => t.lexeme.chars := by
  induction n generalizing p with
  | zero => exact ⟨[], .refl p, rfl⟩
  | succ n ih =>
      obtain ⟨x, hx, hfirst⟩ := exists_passes_call p
      obtain ⟨y, hy, hrest⟩ := ih p.call.2
      refine ⟨x ++ y, hx.trans hy, ?_⟩
      rw [List.filter_append, hfirst, hrest, scan_call, ← List.flatMap_append, Nat.add_comm,
        List.take_add]

/-- The last call instead of the first one. -/
theorem afterCalls_succ (p : Cursor) (n : Nat) :
    p.afterCalls (n + 1) = (p.afterCalls n).call.2 := by
  induction n generalizing p with
  | zero => rfl
  | succ n ih =>
      rw [afterCalls, ih]
      rfl

/-- The calls give the tokens of the scan, one after the other. -/
theorem next_afterCalls {n : Nat} (h : n < p.scan.tokens.length) :
    (p.afterCalls n).next = .ok (p.scan.tokens[n], p.afterCalls (n + 1)) := by
  have htokens : (p.afterCalls n).scan.tokens = p.scan.tokens[n] :: p.scan.tokens.drop (n + 1) := by
    rw [scan_afterCalls, List.drop_eq_getElem_cons h]
  obtain ⟨after, hnext, -⟩ := exists_next_of_scan htokens
  rw [afterCalls_succ, call_of_next hnext, hnext]

/-- After the last token, all calls give the ending. -/
theorem next_afterCalls_of_le {n : Nat} (h : p.scan.tokens.length ≤ n) :
    (p.afterCalls n).next = .error p.scan.ending := by
  have hscan := scan_afterCalls p n
  rw [List.drop_eq_nil_of_le h] at hscan
  rcases hnext : (p.afterCalls n).next with ending | ⟨t, after⟩
  · rw [scan_of_ending hnext] at hscan
    cases hscan
    rfl
  · rw [scan_of_next hnext] at hscan
    cases hscan

/-- A token has the column of its first character, with what came before. -/
theorem exists_column_eq {n : Nat} (h : n < p.scan.tokens.length) : ∃ x c y,
    p.rest = x ++ c :: y ∧ p.scan.tokens[n].column = p.column + x.length ∧
      c ∈ p.scan.tokens[n].lexeme.chars.head? ∧ x.filter (fun c => !isBlank c) =
        (p.scan.tokens.take n).flatMap fun t => t.lexeme.chars := by
  obtain ⟨x, hx, htext⟩ := exists_passes_afterCalls p n
  obtain ⟨blanks, c, y, hblanks, hnext, hcolumn, -, hchars⟩ :=
    exists_passes_of_next (next_afterCalls h)
  refine ⟨x ++ blanks, c, y ++ (p.afterCalls (n + 1)).rest, ?_, ?_, by rw [hchars]; rfl, ?_⟩
  · rw [hx.rest_eq, hnext.rest_eq]
    simp only [List.append_assoc, List.cons_append]
  · rw [hcolumn, hx.column_eq, List.length_append, Nat.add_assoc]
  · rw [List.filter_append, filter_blanks hblanks, List.append_nil, htext]

end Cursor

/-! ## Texts -/

/-- The calls for tokens in a text give the tokens and then the ending, with their places in the
text. -/
structure Lexes (text : String) (tokens : List Token) (ending : Ending) : Prop where
  call_token : ∀ n (h : n < tokens.length),
    ((Cursor.ofText text).afterCalls n).call.1 = .ok tokens[n]
  call_ending : ∀ n, tokens.length ≤ n →
    ((Cursor.ofText text).afterCalls n).call.1 = .error ending
  length_le : tokens.length ≤ text.toList.length
  isProper : ∀ t ∈ tokens, t.lexeme.IsProper
  /-- After each call, the tokens so far are what has been passed, but for blanks. -/
  passed : ∀ n, ∃ x, text.toList = x ++ ((Cursor.ofText text).afterCalls n).rest ∧
    x.filter (fun c => !isBlank c) = (tokens.take n).flatMap fun t => t.lexeme.chars
  /-- Each token has the column of its first character. -/
  column_eq : ∀ n (h : n < tokens.length), ∃ x c y, text.toList = x ++ c :: y ∧
    tokens[n].column = x.length + 1 ∧ c ∈ tokens[n].lexeme.chars.head? ∧
    x.filter (fun c => !isBlank c) = (tokens.take n).flatMap fun t => t.lexeme.chars
  increasing : (Scan.columns ⟨tokens, ending⟩).Pairwise (· < ·)
  /-- No token could go on with the next character that is no blank. -/
  longest : ∀ n (h : n < tokens.length),
    ∀ c ∈ (((Cursor.ofText text).afterCalls (n + 1)).rest.filter fun c => !isBlank c).head?,
      tokens[n].lexeme.continues c = false
  mayPrecede : ∀ n (h : n + 1 < tokens.length),
    tokens[n].lexeme.MayPrecede tokens[n + 1].lexeme
  /-- A call says that the text is finished if there are only blanks left. -/
  finished_iff : ∀ n column,
    ((Cursor.ofText text).afterCalls n).call.1 = .error (.finished column) ↔
      (∀ b ∈ ((Cursor.ofText text).afterCalls n).rest, isBlank b = true) ∧
        column = text.toList.length + 1
  /-- A call finds a character unexpected if it is the next one, blanks aside, and starts no
  token. -/
  unexpected_iff : ∀ n c column,
    ((Cursor.ofText text).afterCalls n).call.1 = .error (.unexpected c column) ↔
      ∃ x blanks y, text.toList = x ++ (blanks ++ c :: y) ∧
        ((Cursor.ofText text).afterCalls n).rest = blanks ++ c :: y ∧
        (∀ b ∈ blanks, isBlank b = true) ∧ isBlank c = false ∧ ¬ StartsToken c ∧
        column = (x ++ blanks).length + 1

/-- **The tokens of a text are found by calls that lose nothing and take as much as they can.** -/
theorem scan_lexes (text : String) : Lexes text (scan text).tokens (scan text).ending where
  call_token n h := by
    rw [Cursor.call_of_next (Cursor.next_afterCalls h)]
    rfl
  call_ending n h := Cursor.fst_call_eq_error_iff.mpr (Cursor.next_afterCalls_of_le h)
  length_le := Cursor.length_scan_le (Cursor.ofText text)
  isProper t h := isProper_of_mem_scan h
  passed n := by
    obtain ⟨x, hpasses, htext⟩ := Cursor.exists_passes_afterCalls (Cursor.ofText text) n
    exact ⟨x, hpasses.rest_eq, htext⟩
  column_eq n h := by
    obtain ⟨x, c, y, htext, hcolumn, hc, hx⟩ := Cursor.exists_column_eq h
    exact ⟨x, c, y, htext, hcolumn.trans (Nat.add_comm 1 _), hc, hx⟩
  increasing := (Cursor.columns_scan (Cursor.ofText text)).2
  longest n h := Cursor.continues_of_next (Cursor.next_afterCalls h)
  mayPrecede n h := by
    have hnext := Cursor.next_afterCalls h
    have hparts := Cursor.parts_of_next (Cursor.next_afterCalls (Nat.lt_of_succ_lt h)) hnext
    exact hparts.mayPrecede (Cursor.isProper_of_next hnext)
  finished_iff n column := by
    obtain ⟨x, hpasses, -⟩ := Cursor.exists_passes_afterCalls (Cursor.ofText text) n
    rw [Cursor.fst_call_eq_error_iff, Cursor.next_eq_finished_iff, hpasses.finish_eq, Nat.add_comm]
    rfl
  unexpected_iff n c column := by
    obtain ⟨x, hpasses, -⟩ := Cursor.exists_passes_afterCalls (Cursor.ofText text) n
    have htext : text.toList = x ++ ((Cursor.ofText text).afterCalls n).rest := hpasses.rest_eq
    have hcolumn : ((Cursor.ofText text).afterCalls n).column = 1 + x.length := hpasses.column_eq
    rw [Cursor.fst_call_eq_error_iff, Cursor.next_eq_unexpected_iff, hcolumn]
    constructor
    · rintro ⟨blanks, y, hrest, hblanks, hc, hstart, rfl⟩
      refine ⟨x, blanks, y, by rw [htext, hrest], hrest, hblanks, hc, hstart, ?_⟩
      rw [List.length_append]
      omega
    · rintro ⟨x', blanks, y, htext', hrest, hblanks, hc, hstart, rfl⟩
      rw [htext, hrest] at htext'
      obtain rfl := List.append_cancel_right htext'
      refine ⟨blanks, y, hrest, hblanks, hc, hstart, ?_⟩
      rw [List.length_append]
      omega

/-- The blanks inside a number are passed with it, but not the one after it. -/
example : (Cursor.ofText "3 / 4 x").call = (.ok ⟨.number "3/4", 1⟩, ⟨6, [' ', 'x']⟩) := by
  rfl

end LinearSystems.Text
