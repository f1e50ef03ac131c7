import LinearSystems.Proofs.ScanPrefixes
import LinearSystems.Proofs.SideRuns

/-!
# Beginnings of equations

Tokens that were accepted are never a dead end. Where a term is still missing, a number in
parentheses can stand for it, whatever comes before: it goes on with no name and no number, and
is linear in any group. Then the open groups can be closed, and, on the left side, an equals
sign and another number make an equation of it.

* `State.exists_finishes`: any state of a side leads to the end of a side.
* `Sides.Begins`: the tokens are the beginning of an equation.
* `Begins.of_append`, `begins_of_ofText`: beginnings of beginnings and of equations.
* `Begins.exists_completion`: beginnings can be completed.
* `Begins.last_of_left`, `Begins.last_of_right`: what may come next.
-/

namespace LinearSystems

open Text

namespace Side.State

variable {s s' : State} {ts : List Token}

/-! ## Completing a side -/

instance (s : State) : Decidable s.MayEnd := inferInstanceAs (Decidable (_ ∨ _))

/-- A term, as it can be written after anything but a term. -/
def anyTerm : List Lexeme := [.opening, .number "1", .closing]

/-- What completes a side: a term, if one is missing, and the parentheses that are open. -/
def completion (s : State) : List Lexeme :=
  (if s.MayEnd then [] else anyTerm) ++ s.groups.map fun _ => .closing

theorem exists_accept_closing (h : s.MayEnd) {g : Group} {outer : List Group}
    (hgroups : s.groups = g :: outer) {t : Token} (ht : t.lexeme = .closing) :
    ∃ s', s.accept t = .ok s' ∧ s'.MayEnd ∧ s'.groups = outer := by
  refine ⟨s.afterClosing outer, ?_, Or.inr rfl, rfl⟩
  rw [accept, ht]
  exact acceptClosing_eq_ok_iff.mpr ⟨h, g, outer, hgroups, rfl⟩

theorem exists_runs_closings (h : s.MayEnd)
    (hts : ts.map Token.lexeme = s.groups.map fun _ => .closing) :
    ∃ s', s.Runs ts s' ∧ s'.MayEnd ∧ s'.groups = [] := by
  induction hgroups : s.groups generalizing s ts with
  | nil =>
      rw [hgroups] at hts
      obtain rfl : ts = [] := List.map_eq_nil_iff.mp hts
      exact ⟨s, runs_nil_iff.mpr rfl, h, hgroups⟩
  | cons g outer ih =>
      rw [hgroups] at hts
      obtain ⟨t, rest, rfl, ht, hrest⟩ := List.map_eq_cons_iff.mp hts
      obtain ⟨next, hnext, hend, houter⟩ := exists_accept_closing h hgroups ht
      obtain ⟨s', hruns, hs'⟩ := ih hend (by rw [houter]; exact hrest) houter
      exact ⟨s', runs_cons_iff.mpr ⟨next, hnext, hruns⟩, hs'⟩

theorem exists_runs_anyTerm (h : ¬ s.MayEnd) (hts : ts.map Token.lexeme = anyTerm) :
    ∃ s', s.Runs ts s' ∧ s'.MayEnd ∧ s'.groups = s.groups := by
  obtain ⟨opening, rest, rfl, hopening, hrest⟩ := List.map_eq_cons_iff.mp hts
  obtain ⟨number, rest, rfl, hnumber, hrest⟩ := List.map_eq_cons_iff.mp hrest
  obtain ⟨closing, rest, rfl, hclosing, hrest⟩ := List.map_eq_cons_iff.mp hrest
  obtain rfl : rest = [] := List.map_eq_nil_iff.mp hrest
  let inner := s.afterOpening opening.column
  have hopen : s.accept opening = .ok inner := by
    rw [accept, hopening]
    exact acceptOpening_eq_ok_iff.mpr ⟨fun hprevious => h (Or.inr hprevious), rfl⟩
  have hone : inner.accept number = .ok (inner.afterFactor (inner.product.times 1)) := by
    rw [accept, hnumber]
    exact acceptNumber_eq_ok_iff.mpr ⟨fun h => (by cases h), 1, by decide +kernel, rfl⟩
  obtain ⟨s', hclose, hend, hgroups⟩ :=
    exists_accept_closing (s := inner.afterFactor (inner.product.times 1)) (Or.inl rfl) rfl hclosing
  refine ⟨s', ?_, hend, hgroups⟩
  exact runs_cons_iff.mpr ⟨_, hopen, runs_cons_iff.mpr ⟨_, hone, runs_singleton_iff.mpr hclose⟩⟩

theorem exists_finishes (s : State) (hts : ts.map Token.lexeme = s.completion) :
    ∃ s' form, s.Runs ts s' ∧ s'.Finishes form := by
  obtain ⟨term, closings, rfl, hterm, hclosings⟩ := List.map_eq_append_iff.mp hts
  obtain ⟨middle, hmiddle, hend, hgroups⟩ :
      ∃ middle, s.Runs term middle ∧ middle.MayEnd ∧ middle.groups = s.groups := by
    by_cases h : s.MayEnd
    · rw [if_pos h] at hterm
      obtain rfl : term = [] := List.map_eq_nil_iff.mp hterm
      exact ⟨s, runs_nil_iff.mpr rfl, h, rfl⟩
    · rw [if_neg h] at hterm
      exact exists_runs_anyTerm h hterm
  obtain ⟨s', hruns, hs'⟩ := exists_runs_closings hend (by rw [hgroups]; exact hclosings)
  exact ⟨s', s'.store.form, hmiddle.append hruns, hs'.1, hs'.2, rfl⟩

end Side.State

/-! ## What can be written after anything -/

namespace Text.CanFollow

open Lexeme

variable {l : List Lexeme} {a : Lexeme}

theorem nil : CanFollow [] where
  isProper := by simp
  isChain := .nil
  parts := by simp

theorem isChain_cons (h : CanFollow l) (a : Lexeme) : (a :: l).IsChain Parts := by
  cases l with
  | nil => exact .singleton a
  | cons b l => exact .cons_cons (h.parts b rfl a) h.isChain

/-- No lexeme goes on with a parenthesis or an equals sign. -/
theorem parts_of_mem (ha : a ∈ [opening, closing, equals]) (b : Lexeme) : b.Parts a := by
  have hchars : a.chars = ['('] ∨ a.chars = [')'] ∨ a.chars = ['='] := by
    simp only [List.mem_cons, List.not_mem_nil, or_false] at ha
    rcases ha with rfl | rfl | rfl <;> simp [chars, Lexeme.text]
  intro c hc
  rcases hchars with h | h | h <;> rw [h] at hc <;> cases hc <;> cases b <;> rfl

theorem cons_sign (h : CanFollow l) (ha : a ∈ [opening, closing, equals]) :
    CanFollow (a :: l) where
  isProper := by
    refine List.forall_mem_cons.mpr ⟨?_, h.isProper⟩
    simp only [List.mem_cons, List.not_mem_nil, or_false] at ha
    rcases ha with rfl | rfl | rfl <;> trivial
  isChain := h.isChain_cons a
  parts := by
    intro b hb
    cases hb
    exact parts_of_mem ha

theorem isProper_one : (number "1").IsProper := ⟨'1', [], by decide, by decide, by simp⟩

/-- A number can follow an opening parenthesis or an equals sign. -/
theorem cons_sign_one (h : CanFollow l) (ha : a ∈ [opening, closing, equals]) :
    CanFollow (a :: number "1" :: l) where
  isProper := by
    have hfollow := (h.cons_sign ha).isProper
    rw [List.forall_mem_cons] at hfollow ⊢
    exact ⟨hfollow.1, List.forall_mem_cons.mpr ⟨isProper_one, h.isProper⟩⟩
  isChain := by
    refine .cons_cons ?_ (h.isChain_cons _)
    simp only [List.mem_cons, List.not_mem_nil, or_false] at ha
    rcases ha with rfl | rfl | rfl <;> exact fun _ _ => rfl
  parts := by
    intro b hb
    cases hb
    exact parts_of_mem ha

theorem completion_append (s : Side.State) (h : CanFollow l) : CanFollow (s.completion ++ l) := by
  have hclosings : CanFollow ((s.groups.map fun _ => closing) ++ l) := by
    induction s.groups with
    | nil => exact h
    | cons g outer ih => exact ih.cons_sign (by simp)
  rw [Side.State.completion, List.append_assoc]
  split
  · exact hclosings
  · exact (hclosings.cons_sign (by simp)).cons_sign_one (by simp)

end Text.CanFollow

namespace Sides

open Side

/-! ## Equations -/

/-- The tokens are the beginning of an equation: of its left side, or that side, an equals sign
and the beginning of the right side. -/
inductive Begins : List Token → Prop where
  | left {ts : List Token} {s : State} : State.Runs .initial ts s → Begins ts
  | right {front back : List Token} {equals : Token} {form : LinearForm} {s : State} :
      Reads front form → equals.lexeme = .equals → State.Runs .initial back s →
      Begins (front ++ equals :: back)

variable {front ts ts' : List Token}

theorem Begins.of_append (h : Begins (ts ++ ts')) : Begins ts := by
  generalize hall : ts ++ ts' = all at h
  cases h with
  | left hruns =>
      subst hall
      obtain ⟨next, hnext, -⟩ := State.runs_append_iff.mp hruns
      exact .left hnext
  | @right front back equals form s hfront hequals hback =>
      rcases List.append_eq_append_iff.mp hall with ⟨more, rfl, -⟩ | ⟨more, rfl, hmore⟩
      · obtain ⟨s', hruns, -⟩ := hfront
        obtain ⟨next, hnext, -⟩ := State.runs_append_iff.mp hruns
        exact .left hnext
      · cases more with
        | nil =>
            obtain ⟨s', hruns, -⟩ := hfront
            rw [List.append_nil]
            exact .left hruns
        | cons t more =>
            obtain ⟨rfl, rfl⟩ := List.cons.inj hmore
            obtain ⟨next, hnext, -⟩ := State.runs_append_iff.mp hback
            exact .right hfront hequals hnext

theorem begins_of_ofText {text : String} {sides : Sides} (h : ofText text = .ok sides) :
    Begins (scan text).tokens := by
  obtain ⟨-, front, equals, back, htokens, hequals, hfront, s, hruns, -⟩ := ofText_eq_ok_iff.mp h
  rw [htokens]
  exact .right hfront hequals hruns

/-- Every beginning becomes an equation by some lexemes that can follow anything. -/
theorem Begins.exists_completion (h : Begins front) : ∃ lexemes, CanFollow lexemes ∧
    ∀ ts : List Token, ts.map Token.lexeme = lexemes →
      ∃ (sides : Sides) (first second : List Token) (equals : Token),
        front ++ ts = first ++ equals :: second ∧ equals.lexeme = .equals ∧
          Reads first sides.left ∧ Reads second sides.right := by
  cases h with
  | @left _ s hruns =>
      refine ⟨s.completion ++ [.equals, .number "1"],
        (CanFollow.nil.cons_sign_one (by simp)).completion_append s, fun ts hts => ?_⟩
      obtain ⟨closing, rest, rfl, hclosing, hrest⟩ := List.map_eq_append_iff.mp hts
      obtain ⟨equals, rest, rfl, hequals, hrest⟩ := List.map_eq_cons_iff.mp hrest
      obtain ⟨number, rest, rfl, hnumber, hrest⟩ := List.map_eq_cons_iff.mp hrest
      obtain rfl : rest = [] := List.map_eq_nil_iff.mp hrest
      obtain ⟨s', form, hclose, hform⟩ := s.exists_finishes hclosing
      let last := State.initial.afterFactor (Product.one.times 1)
      have hone : State.Runs .initial [number] last := by
        rw [State.runs_singleton_iff, State.accept, hnumber]
        exact State.acceptNumber_eq_ok_iff.mpr ⟨fun h => (by cases h), 1, by decide +kernel, rfl⟩
      exact ⟨⟨form, last.store.form⟩, front ++ closing, [number], equals, by simp, hequals,
        ⟨s', hruns.append hclose, hform⟩, last, hone, Or.inl rfl, rfl, rfl⟩
  | @right front back equals left s hfront hequals hback =>
      refine ⟨s.completion, ?_, fun ts hts => ?_⟩
      · rw [← List.append_nil s.completion]
        exact CanFollow.nil.completion_append s
      · obtain ⟨s', form, hclose, hform⟩ := s.exists_finishes hts
        exact ⟨⟨left, form⟩, front, back ++ ts, equals, by simp, hequals, hfront, s',
          hback.append hclose, hform⟩

/-! ## What may come next -/

/-- No token of a run is an equals sign. -/
theorem lexeme_ne_equals_of_runs {s s' : State} (h : s.Runs ts s') {t : Token} (ht : t ∈ ts) :
    t.lexeme ≠ .equals := by
  obtain ⟨before, after, rfl⟩ := List.mem_iff_append.mp ht
  obtain ⟨middle, -, hmiddle⟩ := State.runs_append_iff.mp h
  obtain ⟨next, hnext, -⟩ := State.runs_cons_iff.mp hmiddle
  exact fun hequals => State.accept_equals hequals hnext

theorem Reads.lexeme_ne_equals {form : LinearForm} (h : Reads ts form) {t : Token} (ht : t ∈ ts) :
    t.lexeme ≠ .equals := by
  obtain ⟨s, hruns, -⟩ := h
  exact lexeme_ne_equals_of_runs hruns ht

/-- There is one way to split tokens at the first equals sign. -/
theorem split_unique {front front' back back' : List Token} {equals equals' : Token}
    (hfront : ∀ t ∈ front, t.lexeme ≠ .equals) (hfront' : ∀ t ∈ front', t.lexeme ≠ .equals)
    (hequals : equals.lexeme = .equals) (hequals' : equals'.lexeme = .equals)
    (h : front ++ equals :: back = front' ++ equals' :: back') : front = front' ∧ back = back' := by
  rcases List.append_eq_append_iff.mp h with ⟨more, rfl, hmore⟩ | ⟨more, rfl, hmore⟩
  · cases more with
    | nil => exact ⟨(List.append_nil _).symm, (List.cons.inj hmore).2⟩
    | cons t more =>
        obtain ⟨rfl, -⟩ := List.cons.inj hmore
        exact absurd hequals (hfront' equals (by simp))
  · cases more with
    | nil => exact ⟨List.append_nil _, (List.cons.inj hmore).2.symm⟩
    | cons t more =>
        obtain ⟨rfl, -⟩ := List.cons.inj hmore
        exact absurd hequals' (hfront equals' (by simp))

section Last

variable {s : State} {t : Token}

/-- On the left side, the next token is accepted, or it is an equals sign and ends the side. -/
theorem Begins.last_of_left (hruns : State.Runs .initial front s) (h : Begins (front ++ [t])) :
    (∃ s', s.accept t = .ok s') ∨ t.lexeme = .equals ∧ ∃ form, s.Finishes form := by
  have hnone : ∀ t ∈ front, t.lexeme ≠ .equals := fun _ => lexeme_ne_equals_of_runs hruns
  generalize hall : front ++ [t] = all at h
  cases h with
  | left hall' =>
      subst hall
      obtain ⟨next, hnext, hlast⟩ := State.runs_append_iff.mp hall'
      obtain rfl : next = s := Except.ok.inj (hnext.symm.trans hruns)
      exact Or.inl ⟨_, State.runs_singleton_iff.mp hlast⟩
  | @right first back equals form s' hfirst hequals hback =>
      have ht : t.lexeme = .equals := by
        have hmem : equals ∈ front ++ [t] := by
          rw [hall]
          simp
        rcases List.mem_append.mp hmem with hmem | hmem
        · exact absurd hequals (hnone equals hmem)
        · rwa [← List.mem_singleton.mp hmem]
      obtain ⟨rfl, -⟩ := split_unique hnone (fun _ => Reads.lexeme_ne_equals hfirst) ht hequals hall
      obtain ⟨s'', hruns', hform⟩ := hfirst
      obtain rfl : s'' = s := Except.ok.inj (hruns'.symm.trans hruns)
      exact Or.inr ⟨ht, form, hform⟩

/-- On the right side, the next token is accepted. -/
theorem Begins.last_of_right {back : List Token} {equals : Token} {form : LinearForm}
    (hfront : Reads front form) (hequals : equals.lexeme = .equals)
    (hruns : State.Runs .initial back s) (h : Begins (front ++ equals :: back ++ [t])) :
    ∃ s', s.accept t = .ok s' := by
  rw [List.append_assoc, List.cons_append] at h
  generalize hall : front ++ equals :: (back ++ [t]) = all at h
  cases h with
  | left hall' =>
      subst hall
      exact absurd hequals (lexeme_ne_equals_of_runs hall' (by simp))
  | @right first back' equals' form' s' hfirst hequals' hback =>
      obtain ⟨-, rfl⟩ := split_unique (fun _ => Reads.lexeme_ne_equals hfront)
        (fun _ => Reads.lexeme_ne_equals hfirst) hequals hequals' hall
      obtain ⟨next, hnext, hlast⟩ := State.runs_append_iff.mp hback
      obtain rfl : next = s := Except.ok.inj (hnext.symm.trans hruns)
      exact ⟨_, State.runs_singleton_iff.mp hlast⟩

end Last

end Sides

end LinearSystems
