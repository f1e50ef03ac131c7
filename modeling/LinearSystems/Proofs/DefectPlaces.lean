import LinearSystems.Proofs.EquationBeginnings
import LinearSystems.Proofs.ScanPrefixes

/-!
# The places of defects

A text that is not an equation has its defect at the first place where it goes wrong. The tokens
before that place are the beginning of an equation, so what stands before it can be completed.
No token of the kind that comes next goes on with that beginning, so no text that starts with
these characters and the next one is an equation. Two defects show only further on: a number has
to be read to its end before it is known to be none, and a parenthesis that is not closed is told
by its own place.

* `Cause.showsLater`: the two kinds of defects that are not seen at their first character.
* `State.exists_of_accept_of_same_kind`: tokens of one kind are accepted in the same states.
* `exists_of_readFrom_error`: where a side goes wrong.
* `Sides.exists_of_error`: where an equation goes wrong.
* `Sides.ofText_error_place`: the column of a defect, by the texts that are equations.
-/

namespace LinearSystems

open Text

/-- The defects that are not seen at the character in their column, but only further on. -/
def Defect.Cause.showsLater : Defect.Cause → Bool
  | invalidNumber _ => true
  | unclosedOpening => true
  | _ => false

theorem Text.Ending.column_of_defect? {ending : Ending} {d : Defect}
    (h : ending.defect? = some d) : d.column = ending.column := by
  cases ending with
  | finished column => cases h
  | unexpected char column =>
      cases h
      rfl

namespace Side

namespace State

variable {s s' : State} {t t' : Token} {ts : List Token} {g : Group}

/-! ## Tokens of the same kind -/

theorem exists_acceptNumber (h : s.previous ≠ .closing) (text : String) :
    (∃ s', s.acceptNumber text = .ok s') ∨ s.acceptNumber text = .error (.invalidNumber text) := by
  rw [acceptNumber, if_neg h]
  cases Number.ofText? text.toList with
  | none => exact Or.inr rfl
  | some q => exact Or.inl ⟨_, rfl⟩

/-- Where a token is accepted, all tokens of its kind are, but for numbers that are none. -/
theorem exists_of_accept_of_same_kind (hkind : t'.lexeme.kind = t.lexeme.kind)
    (h : s.accept t' = .ok s') :
    (∃ next, s.accept t = .ok next) ∨ ∃ text, s.accept t = .error (.invalidNumber text) := by
  obtain ⟨lexeme, column⟩ := t
  obtain ⟨lexeme', column'⟩ := t'
  cases lexeme <;> cases lexeme' <;> cases hkind
  case name.name.refl text text' =>
      obtain ⟨hprevious, hbound, -⟩ := acceptName_eq_ok_iff.mp h
      exact Or.inl ⟨_, acceptName_eq_ok_iff.mpr ⟨hprevious, hbound, rfl⟩⟩
  case number.number.refl text text' =>
      obtain ⟨hprevious, -⟩ := acceptNumber_eq_ok_iff.mp h
      exact (exists_acceptNumber hprevious text).imp_right fun h => ⟨text, h⟩
  case opening.opening.refl =>
      obtain ⟨hprevious, -⟩ := acceptOpening_eq_ok_iff.mp h
      exact Or.inl ⟨_, acceptOpening_eq_ok_iff.mpr ⟨hprevious, rfl⟩⟩
  all_goals exact Or.inl ⟨s', h⟩

/-- No token of the kind of `t` goes on with the side or ends it. -/
def Rejects (s : State) (t : Token) : Prop :=
  ∀ t' : Token, t'.lexeme.kind = t.lexeme.kind →
    (∀ s', s.accept t' ≠ .ok s') ∧ (t'.lexeme = .equals → ∀ form, ¬ s.Finishes form)

theorem kind_eq_equals_iff {a : Lexeme} : a.kind = .equals ↔ a = .equals := by
  cases a <;> simp [Lexeme.kind]

theorem rejects_of_accept_error {cause : Defect.Cause} (ht : t.lexeme ≠ .equals)
    (h : s.accept t = .error cause) (hcause : cause.showsLater = false) : s.Rejects t := by
  intro t' hkind
  constructor
  · intro s' hs'
    rcases exists_of_accept_of_same_kind hkind hs' with ⟨next, hnext⟩ | ⟨text, hnumber⟩
    · cases h.symm.trans hnext
    · cases h.symm.trans hnumber
      cases hcause
  · intro hequals
    rw [hequals] at hkind
    exact absurd (kind_eq_equals_iff.mp hkind.symm) ht

theorem rejects_equals (ht : t.lexeme = .equals) (h : ∀ form, ¬ s.Finishes form) :
    s.Rejects t := by
  intro t' hkind
  rw [ht] at hkind
  exact ⟨fun s' => accept_equals (kind_eq_equals_iff.mp hkind), fun _ => h⟩

/-! ## Open groups -/

/-- A side that may not end has its defect there, or at a parenthesis that is open. -/
theorem finish_eq_error {column : Nat} {d : Defect} (h : s.finish column = .error d) :
    d.column = column ∨ ∃ g ∈ s.groups, d = ⟨g.column, .unclosedOpening⟩ := by
  rw [finish] at h
  cases hprevious : s.previous <;> cases hgroups : s.groups <;> rw [hprevious, hgroups] at h <;>
    cases h
  case factor.cons.refl g outer => exact Or.inr ⟨g, List.mem_cons_self, rfl⟩
  case closing.cons.refl g outer => exact Or.inr ⟨g, List.mem_cons_self, rfl⟩
  all_goals exact Or.inl rfl

theorem mem_groups_of_accept (h : s.accept t = .ok s') (hg : g ∈ s'.groups) :
    g ∈ s.groups ∨ t.column = g.column := by
  obtain ⟨lexeme, column⟩ := t
  cases lexeme with
  | name text =>
      obtain ⟨-, -, rfl⟩ := acceptName_eq_ok_iff.mp h
      exact Or.inl hg
  | number text =>
      obtain ⟨-, q, -, rfl⟩ := acceptNumber_eq_ok_iff.mp h
      exact Or.inl hg
  | plus =>
      obtain ⟨-, rfl⟩ := (acceptSign_eq_ok_iff .plus).mp h
      exact Or.inl (groups_store s ▸ hg)
  | minus =>
      obtain ⟨-, rfl⟩ := (acceptSign_eq_ok_iff .minus).mp h
      exact Or.inl (groups_store s ▸ hg)
  | star =>
      obtain ⟨-, rfl⟩ := acceptStar_eq_ok_iff.mp h
      exact Or.inl hg
  | opening =>
      obtain ⟨-, rfl⟩ := acceptOpening_eq_ok_iff.mp h
      rcases List.mem_cons.mp hg with rfl | hg
      · exact Or.inr rfl
      · exact Or.inl hg
  | closing =>
      obtain ⟨-, g', outer, hgroups, rfl⟩ := acceptClosing_eq_ok_iff.mp h
      rw [hgroups]
      exact Or.inl (List.mem_cons_of_mem g' hg)
  | equals => exact absurd h (accept_equals rfl)

/-- A group that is open after a run was open before, or has the column of one of its tokens. -/
theorem mem_groups_of_runs (h : s.Runs ts s') (hg : g ∈ s'.groups) :
    g ∈ s.groups ∨ ∃ before t after, ts = before ++ t :: after ∧ t.column = g.column := by
  induction ts generalizing s with
  | nil =>
      obtain rfl := runs_nil_iff.mp h
      exact Or.inl hg
  | cons t ts ih =>
      obtain ⟨next, hnext, hruns⟩ := runs_cons_iff.mp h
      rcases ih hruns with hg | ⟨before, t', after, rfl, hcolumn⟩
      · exact (mem_groups_of_accept hnext hg).imp_right fun hcolumn => ⟨[], t, ts, rfl, hcolumn⟩
      · exact Or.inr ⟨t :: before, t', after, rfl, hcolumn⟩

end State

/-! ## Sides -/

section ReadFrom

variable {ending : Ending} {s : State} {ts rest : List Token} {d : Defect}

/-- Where a side goes wrong: some tokens are read, and what comes next is the place of the
defect, and rejected if the defect shows there; or the defect is an open parenthesis. -/
theorem exists_of_readFrom_error (h : readFrom ending s ts = (.error d, rest)) :
    ∃ front back s', ts = front ++ back ∧ s.Runs front s' ∧
      (d.column = (⟨back, ending⟩ : Scan).column ∧
          (d.cause.showsLater = false → ∀ t ∈ back.head?, s'.Rejects t) ∨
        ∃ g ∈ s'.groups, d = ⟨g.column, .unclosedOpening⟩) := by
  have hnil : s.Runs [] s := State.runs_nil_iff.mpr rfl
  induction ts generalizing s with
  | nil =>
      refine ⟨[], [], s, rfl, hnil, ?_⟩
      rw [readFrom] at h
      split at h
      · next hending =>
        cases h
        exact Or.inl ⟨Ending.column_of_defect? hending, by simp⟩
      · exact (State.finish_eq_error (Prod.mk.inj h).1).imp_left fun hcolumn => ⟨hcolumn, by simp⟩
  | cons t ts ih =>
      by_cases ht : t.lexeme = .equals
      · rw [readFrom, if_pos ht] at h
        have hfinish := (Prod.mk.inj h).1
        have hrejects : s.Rejects t := by
          refine State.rejects_equals ht fun form hform => ?_
          rw [State.finish_eq_ok_iff.mpr hform] at hfinish
          cases hfinish
        refine ⟨[], t :: ts, s, rfl, hnil, ?_⟩
        exact (State.finish_eq_error hfinish).imp_left fun hcolumn =>
          ⟨hcolumn, by simpa using fun _ => hrejects⟩
      · rw [readFrom, if_neg ht] at h
        cases haccept : s.accept t with
        | error cause =>
            rw [haccept] at h
            cases h
            refine ⟨[], t :: ts, s, rfl, hnil, Or.inl ⟨rfl, fun hcause => ?_⟩⟩
            simpa using State.rejects_of_accept_error ht haccept hcause
        | ok next =>
            have hone : s.Runs [t] next := State.runs_singleton_iff.mpr haccept
            rw [haccept] at h
            cases hdefect : (⟨ts, ending⟩ : Scan).defect? with
            | some d' =>
                simp only [hdefect] at h
                cases h
                obtain ⟨rfl, hending⟩ : ts = [] ∧ ending.defect? = some d := by
                  simpa [Scan.defect?] using hdefect
                exact ⟨[t], [], next, rfl, hone,
                  Or.inl ⟨Ending.column_of_defect? hending, by simp⟩⟩
            | none =>
                simp only [hdefect] at h
                obtain ⟨front, back, s', rfl, hruns, hplace⟩ := ih h (State.runs_nil_iff.mpr rfl)
                exact ⟨t :: front, back, s', rfl, hone.append hruns, hplace⟩

/-- Where a side goes wrong, with an open parenthesis as the place where its token starts. -/
theorem exists_of_read_error {after : Scan} (h : read ⟨ts, ending⟩ = (.error d, after)) :
    ∃ front back s, ts = front ++ back ∧ State.Runs .initial front s ∧
      d.column = (⟨back, ending⟩ : Scan).column ∧
      (d.cause.showsLater = false → ∀ t ∈ back.head?, s.Rejects t) := by
  rw [read] at h
  have hread : readFrom ending .initial ts = (.error d, (readFrom ending .initial ts).2) :=
    Prod.ext (Prod.mk.inj h).1 rfl
  obtain ⟨front, back, s, rfl, hruns, ⟨hcolumn, hrejects⟩ | ⟨g, hg, rfl⟩⟩ :=
    exists_of_readFrom_error hread
  · exact ⟨front, back, s, rfl, hruns, hcolumn, hrejects⟩
  · rcases State.mem_groups_of_runs hruns hg with hg | ⟨before, t, after, rfl, hcolumn⟩
    · cases hg
    · obtain ⟨middle, hbefore, -⟩ := State.runs_append_iff.mp hruns
      exact ⟨before, t :: after ++ back, middle, by simp, hbefore, hcolumn.symm,
        fun hcause => by cases hcause⟩

end ReadFrom

end Side

namespace Sides

open Side

/-! ## Equations -/

/-- Where an equation goes wrong: the tokens before are the beginning of an equation, but not
together with a token of the kind that comes next, if the defect shows there. -/
theorem exists_of_error {text : String} {d : Defect} (h : ofText text = .error d) :
    ∃ front rest, (scan text).tokens = front ++ rest ∧ Begins front ∧
      d.column = (⟨rest, (scan text).ending⟩ : Scan).column ∧
      (d.cause.showsLater = false → ∀ t ∈ rest.head?, ∀ t' : Token,
        t'.lexeme.kind = t.lexeme.kind → ¬ Begins (front ++ [t'])) := by
  rw [ofText] at h
  generalize scan text = s at h ⊢
  obtain ⟨tokens, ending⟩ := s
  rw [read] at h
  split at h
  · next d' after hleft =>
    cases h
    obtain ⟨front, rest, s, rfl, hruns, hcolumn, hrejects⟩ := exists_of_read_error hleft
    refine ⟨front, rest, rfl, .left hruns, hcolumn, fun hcause t ht t' hkind hbegins => ?_⟩
    obtain ⟨haccept, hfinish⟩ := hrejects hcause t ht t' hkind
    rcases hbegins.last_of_left hruns with ⟨s', hs'⟩ | ⟨hequals, form, hform⟩
    · exact haccept s' hs'
    · exact hfinish hequals form hform
  · next left middle hleft =>
    obtain ⟨first, middle, rfl, hfirst, hstops, rfl⟩ := Side.read_eq_ok_iff.mp hleft
    cases middle with
    | nil =>
        -- There is no equals sign.
        cases h
        obtain ⟨s, hruns, -⟩ := hfirst
        exact ⟨first, [], rfl, .left hruns, rfl, by simp⟩
    | cons equals second =>
        have hequals : equals.lexeme = .equals := hstops
        have hbegins : ∀ {back : List Token} {s : State}, State.Runs .initial back s →
            Begins (first ++ equals :: back) := fun hruns => .right hfirst hequals hruns
        cases hdefect : (⟨second, ending⟩ : Scan).defect? with
        | some d' =>
            -- After the equals sign comes a character that starts no token.
            simp only [passEquals, hdefect] at h
            cases h
            obtain ⟨rfl, hending⟩ : second = [] ∧ ending.defect? = some d := by
              simpa [Scan.defect?] using hdefect
            exact ⟨first ++ [equals], [], by simp, hbegins (State.runs_nil_iff.mpr rfl),
              Ending.column_of_defect? hending, by simp⟩
        | none =>
            simp only [passEquals, hdefect] at h
            split at h
            · next d' after hright =>
              cases h
              obtain ⟨front, rest, s, rfl, hruns, hcolumn, hrejects⟩ := exists_of_read_error hright
              refine ⟨first ++ equals :: front, rest, by simp, hbegins hruns, hcolumn,
                fun hcause t ht t' hkind hnext => ?_⟩
              obtain ⟨s', hs'⟩ := hnext.last_of_right hfirst hequals hruns
              exact (hrejects hcause t ht t' hkind).1 s' hs'
            · next right rest hright =>
              obtain ⟨back, rest, rfl, ⟨s, hruns, -⟩, hstops', rfl⟩ :=
                Side.read_eq_ok_iff.mp hright
              cases rest with
              | nil => cases h
              | cons t rest =>
                  -- There is another equals sign.
                  cases h
                  refine ⟨first ++ equals :: back, t :: rest, by simp, hbegins hruns, rfl, ?_⟩
                  intro _ t'' ht t' hkind hnext
                  obtain ⟨s', hs'⟩ := hnext.last_of_right hfirst hequals hruns
                  obtain rfl : t = t'' := by simpa using ht
                  rw [show t.lexeme = .equals from hstops'] at hkind
                  exact State.accept_equals (State.kind_eq_equals_iff.mp hkind) hs'

/-- **Defects are at the first place where a text goes wrong.** The column of a defect is one of
the text, or the one after its last character. What stands before that column can be completed
to an equation. Unless the defect is an invalid number or an open parenthesis, no text that
starts with these characters and the next one is an equation. -/
theorem ofText_error_place {place : Nat} {text : String} {error : Error}
    (h : (ofText text).mapError (Error.malformed place) = .error error) :
    ∃ column cause, error = .malformed place ⟨column, cause⟩ ∧
      1 ≤ column ∧ column ≤ text.toList.length + 1 ∧
      (∃ (more : List Char) (sides : Sides),
        (ofText (String.ofList (text.toList.take (column - 1) ++ more))).mapError
          (Error.malformed place) = .ok sides) ∧
      (column ≤ text.toList.length → (∀ literal, cause ≠ .invalidNumber literal) →
        cause ≠ .unclosedOpening → ∀ other : String,
          text.toList.take column <+: other.toList → ∃ error',
            (ofText other).mapError (Error.malformed place) = .error error') := by
  obtain ⟨d, htext, rfl⟩ : ∃ d, ofText text = .error d ∧ error = .malformed place d := by
    cases htext : ofText text with
    | error d =>
        rw [htext] at h
        exact ⟨d, rfl, (Except.error.inj h).symm⟩
    | ok sides =>
        rw [htext] at h
        cases h
  obtain ⟨front, rest, htokens, hbegins, hcolumn, hnext⟩ := exists_of_error htext
  obtain ⟨x, y, after, hstands, hafter⟩ := exists_standsAfter htokens
  have hplace : d.column = x.length + 1 := by
    rw [hcolumn, ← hafter, hstands.column_eq, Nat.add_comm]
  have hlength : text.toList.length = x.length + y.length := by
    rw [hstands.text_eq, List.length_append]
  refine ⟨d.column, d.cause, rfl, by omega, by omega, ?_, ?_⟩
  · -- What comes before the column ends where a token could start.
    have hbefore : text.toList.take (d.column - 1) = x := by
      rw [hplace, Nat.add_sub_cancel, hstands.text_eq, List.take_left]
    obtain ⟨lexemes, hfollow, hsides⟩ := hbegins.exists_completion
    obtain ⟨ts, column, hts, hscan⟩ := hstands.scan_append hfollow
    obtain ⟨sides, first, second, equals, hsplit, hequals, hfirst, hsecond⟩ := hsides ts hts
    refine ⟨lexemes.flatMap Lexeme.chars, sides, mapError_eq_ok_iff.mpr (ofText_eq_ok_iff.mpr ?_)⟩
    rw [hbefore, hscan]
    exact ⟨rfl, first, equals, second, hsplit, hequals, hfirst, hsecond⟩
  · rintro hinside hnumber hopening other ⟨z, hz⟩
    have hcause : d.cause.showsLater = false := by
      cases hd : d.cause <;> first | rfl | exact absurd hd (hnumber _) | exact absurd hd hopening
    obtain ⟨c, y, rfl⟩ : ∃ c y', y = c :: y' := List.exists_cons_of_length_pos (by omega)
    have hother : other = String.ofList (x ++ c :: z) := by
      have hcharacters : text.toList.take d.column = x ++ [c] := by
        rw [hplace, hstands.text_eq, List.append_cons, List.take_left' (by simp)]
      rw [← String.toList_inj, String.toList_ofList, ← hz, hcharacters, List.append_assoc]
      rfl
    cases hread : ofText other with
    | error d' => exact ⟨_, rfl⟩
    | ok sides =>
        exfalso
        rcases hstands.scan_of_same (c := c) rfl z with
          ⟨column, column', -, hending⟩ | ⟨t, ts, t', ts', hscan, hscan', hkind⟩
        · have hfinished := (ofText_eq_ok_iff.mp hread).1
          rw [hother, hending] at hfinished
          cases hfinished
        · have hbegins' := begins_of_ofText hread
          rw [hother, hscan', List.append_cons] at hbegins'
          have hrest : rest = t :: ts := by
            rw [← hscan, hafter]
          exact hnext hcause t (by rw [hrest]; rfl) t' hkind hbegins'.of_append

/-- The text `2(x + ) = 1` goes wrong at the closing parenthesis, in whatever way it goes on. -/
theorem ofText_error_place_missingTerm :
    (ofText "2(x + ) = 1").mapError (Error.malformed 3) =
      .error (.malformed 3 ⟨7, .expectedTerm⟩) ∧
    (∃ (more : List Char) (sides : Sides),
      (ofText (String.ofList ("2(x + ".toList ++ more))).mapError (Error.malformed 3) =
        .ok sides) ∧
    ∀ other : String, "2(x + )".toList <+: other.toList →
      ∃ error', (ofText other).mapError (Error.malformed 3) = .error error' := by
  have h : (ofText "2(x + ) = 1").mapError (Error.malformed 3) =
      .error (.malformed 3 ⟨7, .expectedTerm⟩) := by
    decide +kernel
  obtain ⟨column, cause, herror, -, -, hmore, hother⟩ := ofText_error_place h
  cases herror
  exact ⟨h, hmore, hother (by decide +kernel) nofun nofun⟩

end Sides

end LinearSystems
