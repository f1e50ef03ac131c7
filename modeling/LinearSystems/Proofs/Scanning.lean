import LinearSystems.Proofs.Marks
import Mathlib.Data.List.Chain
import Mathlib.Data.List.TakeWhile

/-!
# Scans

The tokens of a text and its characters determine each other, blanks aside: names and numbers
have the characters that they can have, and a list of lexemes is scanned from its characters
if no lexeme could go on with the first character of the next one.

* `Lexeme.IsProper`, `Lexeme.Parts`: what the lexemes of a text are like.
* `isProper_of_mem_scan`: the lexemes of a text are proper.
* `scan_of_chars`: proper lexemes that part are scanned from their characters.
-/

namespace LinearSystems.Text

namespace Lexeme

/-- The text starts with what `starts` accepts and goes on with what `continues` accepts. -/
def IsRun (starts continues : Char → Bool) (text : List Char) : Prop :=
  ∃ c rest, text = c :: rest ∧ starts c = true ∧ ∀ d ∈ rest, continues d = true

def chars (a : Lexeme) : List Char := a.text.toList

/-- Names and numbers have the characters that they can have. -/
def IsProper (a : Lexeme) : Prop :=
  match a with
  | name _ => IsRun startsName continuesName a.chars
  | number _ => IsRun startsNumber continuesNumber a.chars
  | _ => True

/-- What a lexeme could go on with. -/
def continues : Lexeme → Char → Bool
  | name _ => continuesName
  | number _ => continuesNumber
  | _ => fun _ => false

/-- The second lexeme does not start with a character that the first one could go on with. -/
def Parts (a b : Lexeme) : Prop := ∀ c ∈ b.chars.head?, a.continues c = false

/-- A lexeme is a name, a number, or a character of its own. -/
theorem cases_sign (a : Lexeme) : (∃ text, a = name text) ∨ (∃ text, a = number text) ∨
    ∃ c, a.chars = [c] ∧ ofSign? c = some a := by
  cases a with
  | name text => exact Or.inl ⟨text, rfl⟩
  | number text => exact Or.inr (Or.inl ⟨text, rfl⟩)
  | plus => exact Or.inr (Or.inr ⟨'+', by simp [chars, text], rfl⟩)
  | minus => exact Or.inr (Or.inr ⟨'-', by simp [chars, text], rfl⟩)
  | star => exact Or.inr (Or.inr ⟨'*', by simp [chars, text], rfl⟩)
  | opening => exact Or.inr (Or.inr ⟨'(', by simp [chars, text], rfl⟩)
  | closing => exact Or.inr (Or.inr ⟨')', by simp [chars, text], rfl⟩)
  | equals => exact Or.inr (Or.inr ⟨'=', by simp [chars, text], rfl⟩)

theorem IsProper.chars_ne_nil {a : Lexeme} (h : a.IsProper) : a.chars ≠ [] := by
  rcases a.cases_sign with ⟨text, rfl⟩ | ⟨text, rfl⟩ | ⟨c, hchars, -⟩
  · obtain ⟨c, rest, hchars, -⟩ := h
    exact List.ne_nil_of_mem (hchars ▸ List.mem_cons_self)
  · obtain ⟨c, rest, hchars, -⟩ := h
    exact List.ne_nil_of_mem (hchars ▸ List.mem_cons_self)
  · rw [hchars]
    exact List.cons_ne_nil _ _

theorem isProper_of_ofSign? {c : Char} {a : Lexeme} (h : ofSign? c = some a) : a.IsProper := by
  unfold ofSign? at h
  split at h <;> cases h <;> trivial

theorem chars_of_ofSign? {c : Char} {a : Lexeme} (h : ofSign? c = some a) : a.chars = [c] := by
  unfold ofSign? at h
  split at h <;> cases h <;> simp [chars, text]

end Lexeme

open Lexeme

namespace Cursor

variable {p after : Cursor} {t : Token} {marks : List Mark} {finish : Nat}

/-! ## One token -/

theorem isRun_runText {starts continues : Char → Bool} {m : Mark} (marks : List Mark)
    (h : starts m.char = true) : IsRun starts continues (runText continues m marks).toList := by
  refine ⟨_, _, String.toList_ofList, h, fun d hd => ?_⟩
  obtain ⟨m', hm', rfl⟩ := List.mem_map.mp hd
  exact List.mem_takeWhile_imp (p := fun m : Mark => continues m.char) hm'

/-- A lexeme that leads is proper and starts with the first mark. -/
theorem isProper_of_leading? {m : Mark} {left : List Mark} {a : Lexeme}
    (h : leading? m marks = some (a, left)) : a.IsProper ∧ a.chars.head? = some m.char := by
  rcases leading?_eq_some_iff.mp h with ⟨hsign, -⟩ | ⟨hstart, rfl, -⟩ | ⟨hstart, rfl, -⟩
  · exact ⟨isProper_of_ofSign? hsign, by rw [chars_of_ofSign? hsign, List.head?_singleton]⟩
  · exact ⟨isRun_runText marks hstart, by rw [chars, text, runText, String.toList_ofList]; rfl⟩
  · exact ⟨isRun_runText marks hstart, by rw [chars, text, runText, String.toList_ofList]; rfl⟩

theorem isProper_of_next (h : p.next = .ok (t, after)) : t.lexeme.IsProper := by
  obtain ⟨m, marks, -, -, hlead, -⟩ := exists_leading?_of_next h
  exact (isProper_of_leading? hlead).1

theorem runText_append {accepts : Char → Bool} (m : Mark) {taken left : List Mark}
    (htaken : ∀ m' ∈ taken, accepts m'.char = true)
    (hleft : ∀ m' ∈ left.head?, accepts m'.char = false) :
    runText accepts m (taken ++ left) = runText accepts m taken ∧
      (taken ++ left).dropWhile (accepts ·.char) = left := by
  have hstop : left.takeWhile (accepts ·.char) = [] ∧ left.dropWhile (accepts ·.char) = left := by
    cases left with
    | nil => exact ⟨rfl, rfl⟩
    | cons m' left =>
        have hm' := hleft m' rfl
        simp [hm']
  have hall : taken.takeWhile (accepts ·.char) = taken := List.takeWhile_eq_self_iff.mpr htaken
  rw [runText, runText, List.takeWhile_append_of_pos htaken, List.dropWhile_append_of_pos htaken,
    hstop.1, hstop.2, hall, List.append_nil]
  exact ⟨rfl, rfl⟩

theorem runText_of_chars {continues : Char → Bool} (m : Mark) {cs rest : List Char}
    (hmarks : marks.map Mark.char = cs ++ rest) (hcs : ∀ c ∈ cs, continues c = true)
    (hrest : ∀ c ∈ rest.head?, continues c = false) :
    runText continues m marks = String.ofList (m.char :: cs) ∧
      (marks.dropWhile (continues ·.char)).map Mark.char = rest := by
  obtain ⟨front, after, rfl, rfl, rfl⟩ := List.map_eq_append_iff.mp hmarks
  have hfront : ∀ m ∈ front, continues m.char = true := by
    intro m hm
    exact hcs m.char (List.mem_map_of_mem hm)
  have hafter : ∀ m ∈ after.head?, continues m.char = false := by
    intro m hm
    exact hrest m.char (by rw [List.head?_map, hm]; rfl)
  obtain ⟨htext, hdrop⟩ := runText_append m hfront hafter
  have hall : front.takeWhile (continues ·.char) = front := List.takeWhile_eq_self_iff.mpr hfront
  rw [htext, hdrop, runText, hall]
  exact ⟨rfl, rfl⟩

/-- A proper lexeme is the next token if its characters come next and it cannot go on. -/
theorem next_of_chars {a : Lexeme} (ha : a.IsProper) {rest : List Char}
    (hp : p.stripped = ⟨marks, finish⟩) (hmarks : marks.map Mark.char = a.chars ++ rest)
    (hrest : ∀ c ∈ rest.head?, a.continues c = false) :
    ∃ column after left, p.next = .ok (⟨a, column⟩, after) ∧
      after.stripped = ⟨left, finish⟩ ∧ left.map Mark.char = rest := by
  rcases a.cases_sign with ⟨text, rfl⟩ | ⟨text, rfl⟩ | ⟨c, hchars, hsign⟩
  · obtain ⟨c, cs, htext, hc, hcs⟩ := ha
    rw [htext] at hmarks
    obtain ⟨m, tail, rfl, rfl, htail⟩ := List.map_eq_cons_iff.mp hmarks
    obtain ⟨hrun, hdrop⟩ := runText_of_chars m htail hcs hrest
    obtain ⟨after, hnext, hafter⟩ := next_of_name hp hc
    rw [hrun, ← htext, chars, String.ofList_toList] at hnext
    exact ⟨m.column, after, _, hnext, hafter, hdrop⟩
  · obtain ⟨c, cs, htext, hc, hcs⟩ := ha
    rw [htext] at hmarks
    obtain ⟨m, tail, rfl, rfl, htail⟩ := List.map_eq_cons_iff.mp hmarks
    obtain ⟨hrun, hdrop⟩ := runText_of_chars m htail hcs hrest
    obtain ⟨after, hnext, hafter⟩ := next_of_number hp hc
    rw [hrun, ← htext, chars, String.ofList_toList] at hnext
    exact ⟨m.column, after, _, hnext, hafter, hdrop⟩
  · rw [hchars, List.singleton_append] at hmarks
    obtain ⟨m, tail, rfl, rfl, htail⟩ := List.map_eq_cons_iff.mp hmarks
    obtain ⟨after, hnext, hafter⟩ := next_of_sign hp hsign
    exact ⟨m.column, after, tail, hnext, hafter, htail⟩

/-! ## All tokens -/

theorem isProper_of_mem_scan (h : t ∈ p.scan.tokens) : t.lexeme.IsProper := by
  induction p using scan.induct with
  | case1 p ending hnext =>
      rw [scan_of_ending hnext] at h
      cases h
  | case2 p first after hnext ih =>
      rw [scan_of_next hnext] at h
      rcases List.mem_cons.mp h with rfl | h
      · exact isProper_of_next hnext
      · exact ih h

theorem scan_of_chars {lexemes : List Lexeme} (hproper : ∀ a ∈ lexemes, a.IsProper)
    (hparts : lexemes.IsChain Parts) (hp : p.stripped = ⟨marks, finish⟩)
    (hmarks : marks.map Mark.char = lexemes.flatMap chars) :
    p.scan.tokens.map Token.lexeme = lexemes ∧ p.scan.ending = .finished finish := by
  induction lexemes generalizing p marks with
  | nil =>
      obtain rfl : marks = [] := List.map_eq_nil_iff.mp hmarks
      rw [scan_of_ending (next_of_finished hp)]
      exact ⟨rfl, rfl⟩
  | cons a lexemes ih =>
      rw [List.forall_mem_cons] at hproper
      rw [List.flatMap_cons] at hmarks
      have hstop : ∀ d ∈ (lexemes.flatMap chars).head?, a.continues d = false := by
        cases lexemes with
        | nil => simp
        | cons b rest =>
            have hb : b.chars ≠ [] := (hproper.2 b List.mem_cons_self).chars_ne_nil
            rw [List.flatMap_cons, List.head?_append_of_ne_nil _ hb]
            exact hparts.rel
      obtain ⟨column, after, left, hnext, hafter, hleft⟩ := next_of_chars hproper.1 hp hmarks hstop
      obtain ⟨htokens, hending⟩ := ih hproper.2 hparts.tail hafter hleft
      rw [scan_of_next hnext]
      exact ⟨congrArg (a :: ·) htokens, hending⟩

end Cursor

/-- The lexemes of a text are proper. -/
theorem isProper_of_mem_scan {text : String} {t : Token} (h : t ∈ (scan text).tokens) :
    t.lexeme.IsProper :=
  Cursor.isProper_of_mem_scan h

/-- Proper lexemes that part are scanned from a text with their characters, blanks aside. -/
theorem scan_of_chars {text : String} {lexemes : List Lexeme}
    (hproper : ∀ a ∈ lexemes, a.IsProper) (hparts : lexemes.IsChain Parts)
    (htext : text.toList.filter (fun c => !isBlank c) = lexemes.flatMap chars) :
    (scan text).tokens.map Token.lexeme = lexemes ∧
      ∃ column, (scan text).ending = .finished column := by
  have hmarks := (marksFrom_chars 1 text.toList).trans htext
  obtain ⟨htokens, hending⟩ :=
    Cursor.scan_of_chars (p := Cursor.ofText text) hproper hparts rfl hmarks
  exact ⟨htokens, _, hending⟩

end LinearSystems.Text
