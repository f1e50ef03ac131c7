import LinearSystems.Proofs.Scanning
import LinearSystems.Proofs.TextPieces

/-!
# Beginnings of texts

Scanning goes from left to right and never comes back. Where it stands before a token, the
tokens so far have taken all marks up to there, and they stay the same if the text goes on in
another way, unless the last of them could go on with the first new mark. If the new mark is the
one that stood there, then the token that starts with it may become longer, but not one of
another kind.

* `leading?_append`, `exists_leading?_of_same_mark`: the marks that a lexeme depends on.
* `Cursor.Takes`: a cursor moves over some tokens.
* `Cursor.Takes.exists_marks`: the tokens that are taken, in all texts that begin with their
  marks.
* `exists_standsAfter`: the same for a text and the column that scanning came to.
* `StandsAfter.scan_append`, `StandsAfter.scan_of_same`: texts that go on with other lexemes, or
  with the same character.
-/

namespace LinearSystems.Text

open Lexeme

/-- A lexeme, but for the text of a name or of a number. -/
def Lexeme.kind : Lexeme → Lexeme
  | name _ => name ""
  | number _ => number ""
  | a => a

/-! ## One lexeme -/

section Leading

variable {m : Mark} {marks left : List Mark} {a : Lexeme}

theorem continues_of_ofSign? {c d : Char} (h : ofSign? c = some a) : a.continues d = false := by
  unfold ofSign? at h
  split at h <;> cases h <;> rfl

/-- A run takes some marks, the next mark is not one that it could take, and nothing else that
does not go on with it makes a difference. -/
theorem exists_run_marks (accepts : Char → Bool) (m : Mark) (marks : List Mark) :
    ∃ taken, marks = taken ++ marks.dropWhile (accepts ·.char) ∧
      (∀ m' ∈ (marks.dropWhile (accepts ·.char)).head?, accepts m'.char = false) ∧
      ∀ other : List Mark, (∀ m' ∈ other.head?, accepts m'.char = false) →
        runText accepts m (taken ++ other) = runText accepts m marks ∧
          (taken ++ other).dropWhile (accepts ·.char) = other := by
  have hsplit := List.takeWhile_append_dropWhile (p := fun m : Mark => accepts m.char) (l := marks)
  have htaken : ∀ m' ∈ marks.takeWhile (accepts ·.char), accepts m'.char = true := by
    intro m' hm'
    exact List.mem_takeWhile_imp (p := fun m : Mark => accepts m.char) hm'
  have hnext : ∀ m' ∈ (marks.dropWhile (accepts ·.char)).head?, accepts m'.char = false := by
    intro m' hm'
    exact @eq_false_of_mem_head?_dropWhile Mark (accepts ·.char) marks m' hm'
  refine ⟨_, hsplit.symm, hnext, fun other hother => ?_⟩
  obtain ⟨htext, hdrop⟩ := Cursor.runText_append m htaken hother
  have hmarks := (Cursor.runText_append m htaken hnext).1
  rw [hsplit] at hmarks
  exact ⟨htext.trans hmarks.symm, hdrop⟩

/-- The marks that a lexeme takes decide what it is, with what follows not going on with it. -/
theorem leading?_append (h : leading? m marks = some (a, left)) :
    ∃ taken, marks = taken ++ left ∧ (∀ m' ∈ left.head?, a.continues m'.char = false) ∧
      ∀ other : List Mark, (∀ m' ∈ other.head?, a.continues m'.char = false) →
        leading? m (taken ++ other) = some (a, other) := by
  rcases leading?_eq_some_iff.mp h with ⟨hsign, rfl⟩ | ⟨hnumber, rfl, rfl⟩ | ⟨hname, rfl, rfl⟩
  · exact ⟨[], rfl, fun _ _ => continues_of_ofSign? hsign,
      fun other _ => leading?_eq_some_iff.mpr (Or.inl ⟨hsign, rfl⟩)⟩
  · obtain ⟨taken, hmarks, hnext, hother⟩ := exists_run_marks continuesNumber m marks
    refine ⟨taken, hmarks, hnext, fun other hstop => leading?_eq_some_iff.mpr (Or.inr (Or.inl ?_))⟩
    rw [(hother other hstop).1, (hother other hstop).2]
    exact ⟨hnumber, rfl, rfl⟩
  · obtain ⟨taken, hmarks, hnext, hother⟩ := exists_run_marks continuesName m marks
    refine ⟨taken, hmarks, hnext, fun other hstop => leading?_eq_some_iff.mpr (Or.inr (Or.inr ?_))⟩
    rw [(hother other hstop).1, (hother other hstop).2]
    exact ⟨hname, rfl, rfl⟩

/-- The kind of a lexeme is decided by its first mark. -/
theorem exists_leading?_of_same_mark (h : leading? m marks = some (a, left)) (other : List Mark) :
    ∃ b rest, leading? m other = some (b, rest) ∧ b.kind = a.kind := by
  rcases leading?_eq_some_iff.mp h with ⟨hsign, -⟩ | ⟨hnumber, rfl, -⟩ | ⟨hname, rfl, -⟩
  · exact ⟨a, other, leading?_eq_some_iff.mpr (Or.inl ⟨hsign, rfl⟩), rfl⟩
  · exact ⟨_, _, leading?_eq_some_iff.mpr (Or.inr (Or.inl ⟨hnumber, rfl, rfl⟩)), rfl⟩
  · exact ⟨_, _, leading?_eq_some_iff.mpr (Or.inr (Or.inr ⟨hname, rfl, rfl⟩)), rfl⟩

theorem leading?_eq_none_of_same_mark (h : leading? m marks = none) (other : List Mark) :
    leading? m other = none := by
  cases hother : leading? m other with
  | none => rfl
  | some found =>
      obtain ⟨b, rest, hb, -⟩ := exists_leading?_of_same_mark (a := found.1) hother marks
      rw [h] at hb
      cases hb

end Leading

/-- The last token does not go on with the next mark. -/
def Ends (front : List Token) (marks : List Mark) : Prop :=
  ∀ t ∈ front.getLast?, ∀ m ∈ marks.head?, t.lexeme.continues m.char = false

namespace Cursor

variable {p q after : Cursor} {m : Mark} {marks : List Mark} {finish : Nat} {t : Token}
  {front : List Token}

/-! ## Some tokens -/

/-- The tokens are read one after the other, from the one cursor to the other. -/
inductive Takes : Cursor → List Token → Cursor → Prop where
  | nil (p : Cursor) : Takes p [] p
  | cons {p middle after : Cursor} {t : Token} {ts : List Token} :
      p.next = .ok (t, middle) → Takes middle ts after → Takes p (t :: ts) after

theorem Takes.scan_eq (h : p.Takes front after) :
    p.scan = ⟨front ++ after.scan.tokens, after.scan.ending⟩ := by
  induction h with
  | nil => rfl
  | cons hnext _ ih =>
      rw [scan_of_next hnext, ih]
      rfl

/-- The first of the tokens is the next one. -/
theorem exists_next_of_scan {rest : List Token} (h : p.scan.tokens = t :: rest) :
    ∃ after, p.next = .ok (t, after) ∧ after.scan = ⟨rest, p.scan.ending⟩ := by
  cases hnext : p.next with
  | error ending =>
      rw [scan_of_ending hnext] at h
      cases h
  | ok result =>
      obtain ⟨first, after⟩ := result
      rw [scan_of_next hnext] at h ⊢
      obtain ⟨rfl, rfl⟩ := List.cons.inj h
      exact ⟨after, rfl, rfl⟩

theorem exists_takes {rest : List Token} (h : p.scan.tokens = front ++ rest) :
    ∃ after, p.Takes front after ∧ after.scan = ⟨rest, p.scan.ending⟩ := by
  induction front generalizing p with
  | nil =>
      refine ⟨p, .nil p, ?_⟩
      rw [← List.nil_append rest, ← h]
  | cons t front ih =>
      obtain ⟨middle, hnext, hscan⟩ := exists_next_of_scan h
      obtain ⟨after, htakes, hafter⟩ := ih (congrArg Scan.tokens hscan)
      refine ⟨after, .cons hnext htakes, hafter.trans ?_⟩
      rw [hscan]

/-- The tokens take all marks up to some place. Any cursor before these marks reads the same
tokens, unless the last of them goes on. -/
theorem Takes.exists_marks (h : p.Takes front after) :
    after.stripped.finish = p.stripped.finish ∧
    ∃ taken, p.stripped.marks = taken ++ after.stripped.marks ∧ (front ≠ [] → taken ≠ []) ∧
      Ends front after.stripped.marks ∧
      ∀ (q : Cursor) (other : List Mark), q.stripped.marks = taken ++ other → Ends front other →
        ∃ after', q.Takes front after' ∧ after'.stripped = ⟨other, q.stripped.finish⟩ := by
  induction h with
  | nil p =>
      refine ⟨rfl, [], rfl, fun hne => absurd rfl hne, by simp [Ends],
        fun q other hq _ => ⟨q, .nil q, ?_⟩⟩
      rw [show other = q.stripped.marks from hq.symm]
  | @cons p middle after t ts hnext hts ih =>
      obtain ⟨hfinish, taken, hmarks, hne, hlast, hsame⟩ := ih
      obtain ⟨m, marks, hp, hcolumn, hlead, hmiddle⟩ := exists_leading?_of_next hnext
      obtain ⟨first, rfl, hnext', hother⟩ := leading?_append hlead
      rw [hp]
      refine ⟨hfinish.trans hmiddle, m :: (first ++ taken), ?_, fun _ => List.cons_ne_nil _ _, ?_,
        ?_⟩
      · rw [hmarks, List.cons_append, List.append_assoc]
      · cases ts with
        | nil =>
            cases hts
            simpa [Ends] using hnext'
        | cons t' ts => simpa [Ends] using hlast
      · intro q other hq hstop
        have hq' : q.stripped = ⟨m :: (first ++ (taken ++ other)), q.stripped.finish⟩ := by
          rw [← List.append_assoc, ← List.cons_append, ← hq]
        -- What follows the first token is either a mark that was taken or, if there is no
        -- further token, the first of the other marks.
        have hfirst : ∀ m' ∈ (taken ++ other).head?, t.lexeme.continues m'.char = false := by
          intro m' hm'
          cases ts with
          | nil =>
              cases hts
              obtain rfl : taken = [] := by simpa using hmarks
              exact hstop t rfl m' hm'
          | cons t' ts =>
              rw [List.head?_append_of_ne_nil _ (hne (List.cons_ne_nil _ _))] at hm'
              apply hnext' m'
              rwa [hmarks, List.head?_append_of_ne_nil _ (hne (List.cons_ne_nil _ _))]
        rcases next_of_marks hq' with ⟨a, left, after', hlead', hread, hafter'⟩ | ⟨hnone, -⟩
        · obtain ⟨rfl, rfl⟩ : a = t.lexeme ∧ left = taken ++ other := by
            simpa [hother _ hfirst, eq_comm] using hlead'
          obtain ⟨after'', htakes, hafter''⟩ := hsame after' other (by rw [hafter']) (by
            intro t' ht' m' hm'
            apply hstop t' _ m' hm'
            cases ts with
            | nil => cases ht'
            | cons => exact ht')
          rw [hafter'] at hafter''
          have ht : (⟨t.lexeme, m.column⟩ : Token) = t := by rw [← hcolumn]
          exact ⟨after'', .cons (ht ▸ hread) htakes, hafter''⟩
        · rw [hother _ hfirst] at hnone
          cases hnone

/-! ## Columns -/

theorem scan_of_finished (h : p.stripped = ⟨[], finish⟩) :
    p.scan = ⟨[], .finished finish⟩ :=
  scan_of_ending (next_of_finished h)

theorem column_scan (h : p.stripped = ⟨m :: marks, finish⟩) : p.scan.column = m.column := by
  rcases next_of_marks h with ⟨a, left, after, -, hnext, -⟩ | ⟨-, hnext⟩
  · rw [scan_of_next hnext]
    rfl
  · rw [scan_of_ending hnext]
    rfl

end Cursor

/-! ## Texts -/

theorem marksFrom_append (column : Nat) (l l' : List Char) :
    marksFrom column (l ++ l') = marksFrom column l ++ marksFrom (column + l.length) l' := by
  induction l generalizing column with
  | nil => rfl
  | cons c rest ih =>
      have hcolumn : column + 1 + rest.length = column + (c :: rest).length := by
        rw [List.length_cons]
        omega
      cases hblank : isBlank c with
      | true =>
          rw [List.cons_append, marksFrom_of_blank _ _ hblank, marksFrom_of_blank _ _ hblank, ih,
            hcolumn]
      | false =>
          rw [List.cons_append, marksFrom_of_not_blank _ _ hblank,
            marksFrom_of_not_blank _ _ hblank, ih, hcolumn]
          rfl

/-- A mark stands in the text, in its column. -/
theorem exists_eq_append_of_marksFrom {column : Nat} {l : List Char} {before after : List Mark}
    {m : Mark} (h : marksFrom column l = before ++ m :: after) :
    ∃ x y, l = x ++ m.char :: y ∧ column + x.length = m.column ∧ marksFrom column x = before ∧
      isBlank m.char = false := by
  induction l generalizing column before with
  | nil =>
      rw [marksFrom, eq_comm, List.append_eq_nil_iff] at h
      cases h.2
  | cons c rest ih =>
      cases hblank : isBlank c with
      | true =>
          rw [marksFrom_of_blank column rest hblank] at h
          obtain ⟨x, y, rfl, hcolumn, rfl, hm⟩ := ih h
          refine ⟨c :: x, y, rfl, ?_, marksFrom_of_blank column x hblank, hm⟩
          rw [List.length_cons]
          omega
      | false =>
          rw [marksFrom_of_not_blank column rest hblank] at h
          cases before with
          | nil =>
              obtain ⟨rfl, -⟩ := List.cons.inj h
              exact ⟨[], rest, rfl, rfl, rfl, hblank⟩
          | cons m' before =>
              obtain ⟨rfl, hrest⟩ := List.cons.inj h
              obtain ⟨x, y, rfl, hcolumn, rfl, hm⟩ := ih hrest
              refine ⟨c :: x, y, rfl, ?_, marksFrom_of_not_blank column x hblank, hm⟩
              rw [List.length_cons]
              omega

/-- Where scanning stands after some tokens: the text up to there, and the rest, which starts
with the next mark. However a text goes on from there, the tokens are the same, unless the last
one goes on as well. -/
structure StandsAfter (text : String) (front : List Token) (x y : List Char) (after : Cursor) :
    Prop where
  text_eq : text.toList = x ++ y
  scan_eq : scan text = ⟨front ++ after.scan.tokens, after.scan.ending⟩
  stripped_eq : after.stripped = ⟨marksFrom (1 + x.length) y, text.toList.length + 1⟩
  column_eq : after.scan.column = 1 + x.length
  isBlank_head : ∀ c ∈ y.head?, isBlank c = false
  ends : Ends front (marksFrom (1 + x.length) y)
  resumes : ∀ u : List Char, Ends front (marksFrom (1 + x.length) u) → ∃ after' : Cursor,
    scan (String.ofList (x ++ u)) = ⟨front ++ after'.scan.tokens, after'.scan.ending⟩ ∧
      after'.stripped = ⟨marksFrom (1 + x.length) u, (x ++ u).length + 1⟩

/-- Scanning stands before its next token, or else after the last character. -/
theorem exists_standsAfter {text : String} {front rest : List Token}
    (h : (scan text).tokens = front ++ rest) : ∃ x y after, StandsAfter text front x y after ∧
      after.scan = ⟨rest, (scan text).ending⟩ := by
  obtain ⟨after, htakes, hscan⟩ := Cursor.exists_takes (p := Cursor.ofText text) h
  obtain ⟨hfinish, taken, hmarks, -, hlast, hsame⟩ := htakes.exists_marks
  have hmarks : marksFrom 1 text.toList = taken ++ after.stripped.marks := hmarks
  have hstripped : after.stripped = ⟨after.stripped.marks, text.toList.length + 1⟩ :=
    congrArg (Stripped.mk _) hfinish
  obtain ⟨x, y, htext, hcolumn, hx, hy, hblank⟩ : ∃ x y, text.toList = x ++ y ∧
      after.scan.column = 1 + x.length ∧ marksFrom 1 x = taken ∧
      after.stripped.marks = marksFrom (1 + x.length) y ∧ ∀ c ∈ y.head?, isBlank c = false := by
    cases hafter : after.stripped.marks with
    | nil =>
        rw [hafter] at hmarks hstripped
        rw [List.append_nil] at hmarks
        refine ⟨text.toList, [], (List.append_nil _).symm, ?_, hmarks, rfl, by simp⟩
        rw [Cursor.scan_of_finished hstripped, Nat.add_comm]
        rfl
    | cons m marks =>
        rw [hafter] at hmarks hstripped
        obtain ⟨x, y, htext, hcolumn, hx, hm⟩ := exists_eq_append_of_marksFrom hmarks
        refine ⟨x, m.char :: y, htext, ?_, hx, ?_, by simpa using hm⟩
        · rw [Cursor.column_scan hstripped, hcolumn]
        · rw [htext, marksFrom_append, hx] at hmarks
          exact (List.append_cancel_left hmarks).symm
  rw [hy] at hstripped hlast
  refine ⟨x, y, after, ⟨htext, htakes.scan_eq, hstripped, hcolumn, hblank, hlast, fun u hu => ?_⟩,
    hscan⟩
  have hq : (Cursor.ofText (String.ofList (x ++ u))).stripped =
      ⟨taken ++ marksFrom (1 + x.length) u, (x ++ u).length + 1⟩ := by
    rw [Cursor.stripped, Cursor.ofText, String.toList_ofList, marksFrom_append, hx]
  obtain ⟨after', htakes', hafter'⟩ := hsame _ (marksFrom (1 + x.length) u) (by rw [hq]) hu
  rw [hq] at hafter'
  exact ⟨after', htakes'.scan_eq, hafter'⟩

/-! ## Other texts -/

theorem Lexeme.IsProper.isBlank_eq_false {a : Lexeme} (h : a.IsProper) :
    ∀ c ∈ a.chars, isBlank c = false := by
  rcases a.cases_sign with ⟨text, rfl⟩ | ⟨text, rfl⟩ | ⟨d, hchars, hsign⟩
  · obtain ⟨d, rest, hchars, hd, hrest⟩ := h
    rw [hchars, List.forall_mem_cons]
    exact ⟨isBlank_of_continuesName (continuesName_of_startsName hd),
      fun c hc => isBlank_of_continuesName (hrest c hc)⟩
  · obtain ⟨d, rest, hchars, hd, hrest⟩ := h
    rw [hchars, List.forall_mem_cons]
    exact ⟨isBlank_of_continuesNumber (continuesNumber_of_startsNumber hd),
      fun c hc => isBlank_of_continuesNumber (hrest c hc)⟩
  · rw [hchars, List.forall_mem_singleton]
    unfold ofSign? at hsign
    split at hsign <;> first | rfl | cases hsign

/-- Lexemes that can be written after any others, without blanks. -/
structure CanFollow (l : List Lexeme) : Prop where
  isProper : ∀ a ∈ l, a.IsProper
  isChain : l.IsChain Parts
  parts : ∀ a ∈ l.head?, ∀ b : Lexeme, b.Parts a

section Resumed

variable {text : String} {front : List Token} {x y : List Char} {after : Cursor}

/-- Lexemes that can follow do so from any place at which scanning stands. -/
theorem StandsAfter.scan_append (h : StandsAfter text front x y after) {lexemes : List Lexeme}
    (hfollow : CanFollow lexemes) : ∃ ts column, ts.map Token.lexeme = lexemes ∧
      scan (String.ofList (x ++ lexemes.flatMap chars)) = ⟨front ++ ts, .finished column⟩ := by
  have hchars : (marksFrom (1 + x.length) (lexemes.flatMap chars)).map Mark.char =
      lexemes.flatMap chars := by
    rw [marksFrom_chars, List.filter_eq_self]
    intro c hc
    obtain ⟨a, ha, hc⟩ := List.mem_flatMap.mp hc
    rw [(hfollow.isProper a ha).isBlank_eq_false c hc]
    rfl
  have hends : Ends front (marksFrom (1 + x.length) (lexemes.flatMap chars)) := by
    intro t _ m hm
    have hhead : m.char ∈ (lexemes.flatMap chars).head? := by
      rw [← hchars, List.head?_map, hm]
      rfl
    cases lexemes with
    | nil => cases hhead
    | cons a lexemes =>
        rw [List.flatMap_cons, List.head?_append_of_ne_nil _
          (hfollow.isProper a List.mem_cons_self).chars_ne_nil] at hhead
        exact hfollow.parts a rfl t.lexeme m.char hhead
  obtain ⟨after', hscan, hafter'⟩ := h.resumes _ hends
  obtain ⟨htokens, hending⟩ :=
    Cursor.scan_of_chars hfollow.isProper hfollow.isChain hafter' hchars
  exact ⟨after'.scan.tokens, _, htokens, by rw [hscan, hending]⟩

/-- If a text goes on with the character that stands there, then after the same tokens comes a
token of the same kind, or again the character that starts no token. -/
theorem StandsAfter.scan_of_same (h : StandsAfter text front x y after) {c : Char}
    (hc : c ∈ y.head?) (z : List Char) :
    (∃ column column', after.scan = ⟨[], .unexpected c column⟩ ∧
      (scan (String.ofList (x ++ c :: z))).ending = .unexpected c column') ∨
    ∃ t ts t' ts', after.scan.tokens = t :: ts ∧
      (scan (String.ofList (x ++ c :: z))).tokens = front ++ t' :: ts' ∧
      t'.lexeme.kind = t.lexeme.kind := by
  obtain ⟨y, rfl⟩ := List.head?_eq_some_iff.mp hc
  have hblank := h.isBlank_head c rfl
  have hmarks : ∀ l, marksFrom (1 + x.length) (c :: l) =
      ⟨c, 1 + x.length⟩ :: marksFrom (1 + x.length + 1) l :=
    fun l => marksFrom_of_not_blank _ l hblank
  have hends : Ends front (marksFrom (1 + x.length) (c :: z)) := by
    intro t ht m hm
    apply h.ends t ht m
    rw [hmarks] at hm ⊢
    exact hm
  obtain ⟨after', hscan, hafter'⟩ := h.resumes _ hends
  have hafter := h.stripped_eq
  rw [hmarks] at hafter hafter'
  rcases Cursor.next_of_marks hafter with ⟨a, left, next, hlead, hnext, -⟩ | ⟨hnone, hnext⟩
  · obtain ⟨b, rest, hlead', hkind⟩ := exists_leading?_of_same_mark hlead
      (marksFrom (1 + x.length + 1) z)
    rcases Cursor.next_of_marks hafter' with ⟨b', left', next', hb', hnext', -⟩ | ⟨hnone, -⟩
    · obtain ⟨rfl, rfl⟩ := Prod.mk.inj (Option.some.inj (hb'.symm.trans hlead'))
      rw [hscan, Cursor.scan_of_next hnext, Cursor.scan_of_next hnext']
      exact Or.inr ⟨_, _, _, _, rfl, rfl, hkind⟩
    · cases hnone.symm.trans hlead'
  · rcases Cursor.next_of_marks hafter' with ⟨b', left', next', hb', -⟩ | ⟨-, hnext'⟩
    · cases (leading?_eq_none_of_same_mark hnone _).symm.trans hb'
    · rw [hscan, Cursor.scan_of_ending hnext, Cursor.scan_of_ending hnext']
      exact Or.inl ⟨_, _, rfl, rfl⟩

end Resumed

end LinearSystems.Text
