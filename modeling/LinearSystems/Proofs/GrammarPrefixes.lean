import LinearSystems.Proofs.SideRuns

/-!
# Beginnings of trees

What was accepted so far of a side is the beginning of a linear tree: for every open group
what stands before its parenthesis, and behind the last of these what was read of the
innermost group. One more token keeps this, so a run over a side leads to a whole tree.

* `Lead`, `Front`: what stands before a term, and in a term before its group.
* `Opened`, `Inside`: the lexemes before the innermost group, and those in it.
* `isBeginning_of_accept`: the step; `isBeginning_of_runs`: the run.
* `exists_expression_of_reads`: a side is written for a linear tree.
-/

namespace LinearSystems.Grammar

open Text Side

/-! ## Parts of trees -/

/-- What stands before a term in an expression. -/
inductive Lead where
  | start
  | signed (sign : Sign)
  | after (before : Expression) (sign : Sign)

/-- What stands in a term before its group. -/
inductive Front where
  | start
  | factors (p : Factors) (star : Bool)

namespace Lead

def lexemes : Lead → List Lexeme
  | start => []
  | signed sign => [sign.lexeme]
  | after before sign => before.lexemes ++ [sign.lexeme]

def IsLinear (bound : Bool) : Lead → Prop
  | start => True
  | signed _ => True
  | after before _ => before.IsLinear bound

/-- The expression that ends with a term. -/
def add (t : Term) : Lead → Expression
  | start => .term t
  | signed sign => .signed sign t
  | after before sign => .more before sign t

variable {lead : Lead} {t : Term} {bound : Bool}

theorem lexemes_add : (lead.add t).lexemes = lead.lexemes ++ t.lexemes := by
  cases lead with
  | start => rfl
  | signed sign => rfl
  | after before sign => simp [add, lexemes, Expression.lexemes]

theorem isLinear_add (hlead : lead.IsLinear bound) (ht : t.IsLinear bound) :
    (lead.add t).IsLinear bound := by
  cases lead with
  | start => exact ht
  | signed sign => exact ht
  | after before sign => exact ⟨hlead, ht⟩

end Lead

namespace Front

def lexemes : Front → List Lexeme
  | start => []
  | factors p star => p.lexemes ++ starLexemes star

def hasUnknown : Front → Bool
  | start => false
  | factors p _ => p.hasUnknown

def IsLinear (bound : Bool) : Front → Prop
  | start => True
  | factors p _ => p.IsLinear bound

/-- The factors with one more atom. -/
def times (a : Atom) : Front → Factors
  | start => .atom a
  | factors p star => .times p star a

/-- The term that ends with a group. -/
def enclose (inner : Expression) : Front → Term
  | start => .group inner
  | factors p star => .scaled p star inner

variable {front : Front} {a : Atom} {inner : Expression} {bound : Bool}

theorem lexemes_times : (front.times a).lexemes = front.lexemes ++ [a.lexeme] := by
  cases front <;> rfl

theorem lexemes_enclose :
    (front.enclose inner).lexemes = front.lexemes ++ .opening :: inner.lexemes ++ [.closing] := by
  cases front with
  | start => rfl
  | factors p star => simp [enclose, lexemes, Term.lexemes]

theorem hasUnknown_times : (front.times a).hasUnknown = (front.hasUnknown || a.isUnknown) := by
  cases front <;> simp [times, hasUnknown, Factors.hasUnknown]

theorem isLinear_times (hfront : front.IsLinear bound)
    (ha : ((bound || front.hasUnknown) && a.isUnknown) = false) :
    (front.times a).IsLinear bound := by
  cases front with
  | start => rwa [hasUnknown, Bool.or_false] at ha
  | factors p star => exact ⟨hfront, ha⟩

theorem isLinear_enclose (hfront : front.IsLinear bound)
    (hinner : inner.IsLinear (bound || front.hasUnknown)) :
    (front.enclose inner).IsLinear bound := by
  cases front with
  | start => rwa [hasUnknown, Bool.or_false] at hinner
  | factors p star => exact ⟨hfront, hinner⟩

end Front

/-! ## Open groups -/

/-- The lexemes up to the parenthesis of the innermost of the open groups. -/
inductive Opened : List Lexeme → List Group → Prop
  | outside : Opened [] []
  | inside {l : List Lexeme} {outer : List Group} {g : Group} {lead : Lead} {front : Front}
      (outside : Opened l outer) (lead_linear : lead.IsLinear (enclosing outer).isBound)
      (front_linear : front.IsLinear (enclosing outer).isBound)
      (bound_eq : g.multiplier.isBound = ((enclosing outer).isBound || front.hasUnknown)) :
      Opened (l ++ (lead.lexemes ++ front.lexemes ++ [.opening])) (g :: outer)

/-- The lexemes of the innermost group so far, where `bound` says that it is multiplied with
an unknown, and `used` that the running product has one. -/
inductive Inside (bound : Bool) : Previous → Bool → List Lexeme → Prop
  | start : Inside bound .start bound []
  | opening : Inside bound .opening bound []
  | sign {lead : Lead} (lead_linear : lead.IsLinear bound) :
      Inside bound .sign bound lead.lexemes
  | factor {lead : Lead} {p : Factors} (lead_linear : lead.IsLinear bound)
      (linear : p.IsLinear bound) :
      Inside bound .factor (bound || p.hasUnknown) (lead.lexemes ++ p.lexemes)
  | star {lead : Lead} {p : Factors} (lead_linear : lead.IsLinear bound)
      (linear : p.IsLinear bound) :
      Inside bound .star (bound || p.hasUnknown) (lead.lexemes ++ p.lexemes ++ [.star])
  | closing {lead : Lead} {t : Term} {used : Bool} (lead_linear : lead.IsLinear bound)
      (linear : t.IsLinear bound) : Inside bound .closing used (lead.lexemes ++ t.lexemes)

section Inside

variable {bound used : Bool} {previous : Previous} {l : List Lexeme}

/-- Unless a group was closed, the next token may be a factor or open a group. -/
theorem Inside.exists_front (h : Inside bound previous used l) (hne : previous ≠ .closing) :
    ∃ (lead : Lead) (front : Front), l = lead.lexemes ++ front.lexemes ∧ lead.IsLinear bound ∧
      front.IsLinear bound ∧ used = (bound || front.hasUnknown) := by
  cases h with
  | start => exact ⟨.start, .start, rfl, trivial, trivial, (Bool.or_false _).symm⟩
  | opening => exact ⟨.start, .start, rfl, trivial, trivial, (Bool.or_false _).symm⟩
  | @sign lead hlead =>
      exact ⟨lead, .start, (List.append_nil _).symm, hlead, trivial, (Bool.or_false _).symm⟩
  | @factor lead p hlead hp =>
      exact ⟨lead, .factors p false, by simp [Front.lexemes, starLexemes], hlead, hp, rfl⟩
  | @star lead p hlead hp =>
      exact ⟨lead, .factors p true, by simp [Front.lexemes, starLexemes], hlead, hp, rfl⟩
  | closing => exact absurd rfl hne

/-- After a factor or a group there is a whole expression. -/
theorem Inside.exists_expression (h : Inside bound previous used l)
    (hend : previous = .factor ∨ previous = .closing) :
    ∃ e : Expression, l = e.lexemes ∧ e.IsLinear bound := by
  cases h with
  | @factor lead p hlead hp =>
      exact ⟨lead.add (.factors p), (Lead.lexemes_add (t := .factors p)).symm,
        Lead.isLinear_add (t := .factors p) hlead hp⟩
  | @closing lead t _ hlead ht =>
      exact ⟨lead.add t, Lead.lexemes_add.symm, Lead.isLinear_add hlead ht⟩
  | start => simp at hend
  | opening => simp at hend
  | sign => simp at hend
  | star => simp at hend

/-- A sign may stand at the start of an expression, or after a whole one. -/
theorem Inside.exists_lead (h : Inside bound previous used l)
    (hne : previous ≠ .sign ∧ previous ≠ .star) (sign : Sign) :
    ∃ lead : Lead, lead.lexemes = l ++ [sign.lexeme] ∧ lead.IsLinear bound := by
  by_cases hend : previous = .factor ∨ previous = .closing
  · obtain ⟨e, rfl, he⟩ := h.exists_expression hend
    exact ⟨.after e sign, rfl, he⟩
  · cases h with
    | start => exact ⟨.signed sign, rfl, trivial⟩
    | opening => exact ⟨.signed sign, rfl, trivial⟩
    | sign => exact absurd rfl hne.1
    | star => exact absurd rfl hne.2
    | factor => exact absurd (Or.inl rfl) hend
    | closing => exact absurd (Or.inr rfl) hend

/-- After a factor there may be a star. -/
theorem Inside.star_of_factor (h : Inside bound .factor used l) :
    Inside bound .star used (l ++ [.star]) := by
  cases h with
  | factor hlead hp => exact .star hlead hp

end Inside

/-! ## The step and the run -/

/-- The lexemes are the beginning of a linear tree, as far as the state says. -/
def IsBeginning (s : State) (l : List Lexeme) : Prop :=
  ∃ before inner, l = before ++ inner ∧ Opened before s.groups ∧
    Inside (enclosing s.groups).isBound s.previous s.product.isBound inner

section Runs

variable {s s' : State} {l : List Lexeme}

theorem isBeginning_afterFactor {a : Atom} {product : Product} (h : IsBeginning s l)
    (hprevious : s.previous ≠ .closing)
    (hlinear : (s.product.isBound && a.isUnknown) = false)
    (hbound : product.isBound = (s.product.isBound || a.isUnknown)) :
    IsBeginning (s.afterFactor product) (l ++ [a.lexeme]) := by
  obtain ⟨before, inner, rfl, hopened, hinside⟩ := h
  obtain ⟨lead, front, rfl, hlead, hfront, hused⟩ := hinside.exists_front hprevious
  rw [hused] at hlinear
  have hfactor := Inside.factor hlead (Front.isLinear_times hfront hlinear)
  rw [Front.hasUnknown_times, ← Bool.or_assoc, ← hused, ← hbound, Front.lexemes_times] at hfactor
  exact ⟨before, _, by simp, hopened, hfactor⟩

theorem isBeginning_afterSign {sign : Sign} (h : IsBeginning s l)
    (hprevious : s.previous ≠ .sign ∧ s.previous ≠ .star) :
    IsBeginning (s.afterSign sign) (l ++ [sign.lexeme]) := by
  obtain ⟨before, inner, rfl, hopened, hinside⟩ := h
  obtain ⟨lead, hlexemes, hlead⟩ := hinside.exists_lead hprevious sign
  refine ⟨before, lead.lexemes, by rw [hlexemes, List.append_assoc], ?_, ?_⟩
  · simpa [State.afterSign] using hopened
  · simpa [State.afterSign] using Inside.sign hlead

theorem isBeginning_afterStar (h : IsBeginning s l) (hprevious : s.previous = .factor) :
    IsBeginning { s with previous := .star } (l ++ [.star]) := by
  obtain ⟨before, inner, rfl, hopened, hinside⟩ := h
  rw [hprevious] at hinside
  exact ⟨before, _, List.append_assoc _ _ _, hopened, hinside.star_of_factor⟩

theorem isBeginning_afterOpening {column : Nat} (h : IsBeginning s l)
    (hprevious : s.previous ≠ .closing) :
    IsBeginning (s.afterOpening column) (l ++ [.opening]) := by
  obtain ⟨before, inner, rfl, hopened, hinside⟩ := h
  obtain ⟨lead, front, rfl, hlead, hfront, hused⟩ := hinside.exists_front hprevious
  exact ⟨_, [], by simp, .inside hopened hlead hfront hused, .opening⟩

theorem isBeginning_afterClosing {g : Group} {outer : List Group} (h : IsBeginning s l)
    (hend : s.MayEnd) (hgroups : s.groups = g :: outer) :
    IsBeginning (s.afterClosing outer) (l ++ [.closing]) := by
  obtain ⟨before, inner, rfl, hopened, hinside⟩ := h
  obtain ⟨e, rfl, he⟩ := hinside.exists_expression hend
  rw [hgroups] at hopened he
  -- The group ends the term that was begun before its parenthesis.
  cases hopened with
  | @inside l _ _ lead front houtside hlead hfront hbound =>
      have he' : e.IsLinear ((enclosing outer).isBound || front.hasUnknown) := hbound ▸ he
      have hterm : Inside (enclosing outer).isBound .closing (enclosing outer).isBound
          (lead.lexemes ++ (front.enclose e).lexemes) :=
        .closing hlead (Front.isLinear_enclose hfront he')
      exact ⟨l, _, by simp [Front.lexemes_enclose], houtside, hterm⟩

/-- The step: a token that is accepted continues the tree. -/
theorem isBeginning_of_accept {t : Token} (h : IsBeginning s l) (ht : s.accept t = .ok s') :
    IsBeginning s' (l ++ [t.lexeme]) := by
  rw [State.accept] at ht
  cases hlexeme : t.lexeme with
  | name text =>
      rw [hlexeme] at ht
      obtain ⟨hprevious, hfree, rfl⟩ := State.acceptName_eq_ok_iff.mp ht
      exact isBeginning_afterFactor (a := .unknown text) h hprevious (by rw [hfree]; rfl)
        (by rw [hfree]; rfl)
  | number text =>
      rw [hlexeme] at ht
      obtain ⟨hprevious, q, -, rfl⟩ := State.acceptNumber_eq_ok_iff.mp ht
      exact isBeginning_afterFactor (a := .literal text) h hprevious (Bool.and_false _)
        (Bool.or_false _).symm
  | plus =>
      rw [hlexeme] at ht
      obtain ⟨hprevious, rfl⟩ := (State.acceptSign_eq_ok_iff .plus).mp ht
      exact isBeginning_afterSign h hprevious
  | minus =>
      rw [hlexeme] at ht
      obtain ⟨hprevious, rfl⟩ := (State.acceptSign_eq_ok_iff .minus).mp ht
      exact isBeginning_afterSign h hprevious
  | star =>
      rw [hlexeme] at ht
      obtain ⟨hprevious, rfl⟩ := State.acceptStar_eq_ok_iff.mp ht
      exact isBeginning_afterStar h hprevious
  | opening =>
      rw [hlexeme] at ht
      obtain ⟨hprevious, rfl⟩ := State.acceptOpening_eq_ok_iff.mp ht
      exact isBeginning_afterOpening h hprevious
  | closing =>
      rw [hlexeme] at ht
      obtain ⟨hend, g, outer, hgroups, rfl⟩ := State.acceptClosing_eq_ok_iff.mp ht
      exact isBeginning_afterClosing h hend hgroups
  | equals =>
      rw [hlexeme] at ht
      cases ht

theorem isBeginning_of_runs {ts : List Token} (h : IsBeginning s l) (hruns : s.Runs ts s') :
    IsBeginning s' (l ++ ts.map Token.lexeme) := by
  induction ts generalizing s l with
  | nil =>
      obtain rfl := State.runs_nil_iff.mp hruns
      simpa using h
  | cons t ts ih =>
      obtain ⟨next, ht, hruns⟩ := State.runs_cons_iff.mp hruns
      simpa using ih (isBeginning_of_accept h ht) hruns

theorem hasNumbers_of_runs {ts : List Token} (hruns : s.Runs ts s') :
    HasNumbers (ts.map Token.lexeme) := by
  induction ts generalizing s with
  | nil => simp [HasNumbers]
  | cons t ts ih =>
      obtain ⟨next, ht, hruns⟩ := State.runs_cons_iff.mp hruns
      refine hasNumbers_cons.mpr ⟨fun text htext => ?_, ih hruns⟩
      rw [State.accept, ← List.mem_singleton.mp htext] at ht
      obtain ⟨-, q, hq, -⟩ := State.acceptNumber_eq_ok_iff.mp ht
      exact Option.isSome_iff_exists.mpr ⟨q, hq⟩

/-- A side is written for a linear tree. -/
theorem exists_expression_of_reads {ts : List Token} {form : LinearForm} (h : Reads ts form) :
    ∃ e : Expression, ts.map Token.lexeme = e.lexemes ∧ e.IsLinear false ∧
      HasNumbers e.lexemes := by
  obtain ⟨s, hruns, hend, hgroups, -⟩ := h
  have hstart : IsBeginning .initial [] := ⟨[], [], rfl, .outside, .start⟩
  obtain ⟨before, inner, hlexemes, hopened, hinside⟩ := isBeginning_of_runs hstart hruns
  obtain ⟨e, rfl, he⟩ := hinside.exists_expression hend
  rw [hgroups] at hopened he
  -- No group is open, so nothing stands before the expression.
  cases hopened
  have hwritten : ts.map Token.lexeme = e.lexemes := hlexemes
  exact ⟨e, hwritten, he, hwritten ▸ hasNumbers_of_runs hruns⟩

end Runs

end LinearSystems.Grammar
