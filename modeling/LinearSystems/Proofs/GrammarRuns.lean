import LinearSystems.Proofs.SideRuns

/-!
# Trees are read

The tokens that are written for a linear tree are accepted, one after the other, wherever the
tree may stand, and what is stored on the way is the value of the tree times the product that
it is multiplied with there. By induction on the tree.

* `Term.exists_runs`, `Expression.exists_runs`: the runs over a term and an expression.
* `reads_of_lexemes`: the tokens of a linear expression are a side.
-/

namespace LinearSystems.Grammar

open Text Side

variable {s : State}

theorem exists_accept_atom {a : Atom} {t : Token} (ht : t.lexeme = a.lexeme)
    (hnumbers : HasNumbers [a.lexeme]) (hprevious : s.previous ≠ .closing)
    (hlinear : (s.product.isBound && a.isUnknown) = false) :
    ∃ product, s.accept t = .ok (s.afterFactor product) ∧
      product.form = s.product.form * a.value ∧
      product.isBound = (s.product.isBound || a.isUnknown) := by
  rw [State.accept, ht]
  cases a with
  | literal text =>
      obtain ⟨q, hq⟩ := Option.isSome_iff_exists.mp (hnumbers text (List.mem_singleton.mpr rfl))
      refine ⟨s.product.times q, State.acceptNumber_eq_ok_iff.mpr ⟨hprevious, q, hq, rfl⟩, ?_, ?_⟩
      · rw [Product.form_times, Atom.value, literalValue, hq, Option.getD_some]
      · rw [Product.isBound_times, Atom.isUnknown, Bool.or_false]
  | unknown name =>
      have hfree : s.product.isBound = false := by rwa [Atom.isUnknown, Bool.and_true] at hlinear
      refine ⟨s.product.named name, State.acceptName_eq_ok_iff.mpr ⟨hprevious, hfree, rfl⟩, ?_, ?_⟩
      · exact Product.form_named hfree name
      · rw [Product.isBound_named, Atom.isUnknown, Bool.or_true]

/-- The state after a factor, and a star if there is one. -/
def afterStar (s : State) (star : Bool) : State :=
  { s with previous := if star then .star else .factor }

theorem previous_afterStar (star : Bool) : (afterStar s star).previous ≠ .closing := by
  cases star <;> simp [afterStar]

theorem runs_star {star : Bool} {ts : List Token} (hts : ts.map Token.lexeme = starLexemes star)
    (hprevious : s.previous = .factor) : s.Runs ts (afterStar s star) := by
  cases star with
  | false =>
      obtain rfl := List.map_eq_nil_iff.mp hts
      exact State.runs_nil_iff.mpr (by rw [afterStar, if_neg Bool.false_ne_true, ← hprevious])
  | true =>
      obtain ⟨t, rfl, ht⟩ := List.map_eq_singleton_iff.mp hts
      rw [State.runs_singleton_iff, State.accept, ht]
      exact State.acceptStar_eq_ok_iff.mpr ⟨hprevious, rfl⟩

theorem Factors.exists_runs {p : Factors} {ts : List Token}
    (hts : ts.map Token.lexeme = p.lexemes) (hnumbers : HasNumbers p.lexemes)
    (hprevious : s.previous ≠ .closing) (hlinear : p.IsLinear s.product.isBound) :
    ∃ product, s.Runs ts (s.afterFactor product) ∧
      product.form = s.product.form * p.value ∧
      product.isBound = (s.product.isBound || p.hasUnknown) := by
  induction p generalizing ts with
  | atom a =>
      obtain ⟨t, rfl, ht⟩ := List.map_eq_singleton_iff.mp hts
      simp only [State.runs_singleton_iff]
      exact exists_accept_atom ht hnumbers hprevious hlinear
  | times before star a ih =>
      obtain ⟨ts, last, rfl, hts, hlast⟩ := List.map_eq_append_iff.mp hts
      obtain ⟨front, middle, rfl, hfront, hmiddle⟩ := List.map_eq_append_iff.mp hts
      obtain ⟨t, rfl, ht⟩ := List.map_eq_singleton_iff.mp hlast
      obtain ⟨hnumbers, hatom⟩ := hasNumbers_append.mp hnumbers
      obtain ⟨product, hruns, hform, hbound⟩ :=
        ih hfront (hasNumbers_append.mp hnumbers).1 hlinear.1
      have hstar : (s.afterFactor product).Runs middle (afterStar (s.afterFactor product) star) :=
        runs_star hmiddle rfl
      have hlinear' : (product.isBound && a.isUnknown) = false := by
        rw [hbound]
        exact hlinear.2
      obtain ⟨product', haccept, hform', hbound'⟩ := exists_accept_atom
        (s := afterStar (s.afterFactor product) star) ht hatom (previous_afterStar star) hlinear'
      refine ⟨product', ?_, ?_, ?_⟩
      · exact (hruns.append hstar).append (State.runs_singleton_iff.mpr haccept)
      · calc product'.form
          _ = product.form * a.value := hform'
          _ = s.product.form * before.value * a.value := by rw [hform]
          _ = s.product.form * (before.value * a.value) := LinearForm.mul_assoc _ _ _
      · calc product'.isBound
          _ = (product.isBound || a.isUnknown) := hbound'
          _ = (s.product.isBound || before.hasUnknown || a.isUnknown) := by rw [hbound]
          _ = (s.product.isBound || (before.hasUnknown || a.isUnknown)) := Bool.or_assoc _ _ _

/-- What was read from the one state to the other adds `f` to the terms that are stored. -/
structure Adds (s s' : State) (f : LinearForm) : Prop where
  groups_eq : s'.groups = s.groups
  mayEnd : s'.MayEnd
  form_eq : s'.store.form = s.form + f

/-- Nothing was read yet of the expression that starts here. -/
structure Starts (s : State) : Prop where
  previous_eq : s.previous = .start ∨ s.previous = .opening
  not_pending : s.pending = false
  product_eq : s.product = enclosing s.groups

theorem Starts.previous_ne (h : Starts s) {previous : Previous}
    (hne : previous ≠ .start ∧ previous ≠ .opening) : s.previous ≠ previous := by
  rcases h.previous_eq with h | h <;> rw [h]
  · exact hne.1.symm
  · exact hne.2.symm

theorem accept_sign {sign : Sign} {t : Token} (ht : t.lexeme = sign.lexeme)
    (hprevious : s.previous ≠ .sign ∧ s.previous ≠ .star) :
    s.accept t = .ok (s.afterSign sign) := by
  rw [State.accept, ht]
  cases sign with
  | plus => exact (State.acceptSign_eq_ok_iff .plus).mpr ⟨hprevious, rfl⟩
  | minus => exact (State.acceptSign_eq_ok_iff .minus).mpr ⟨hprevious, rfl⟩

/-- A group, if what stands in it can be read from where its parenthesis opens. -/
theorem exists_runs_group {lexemes : List Lexeme} {f : LinearForm}
    (hinner : ∀ column inner, inner.map Token.lexeme = lexemes →
      ∃ s', (s.afterOpening column).Runs inner s' ∧ Adds (s.afterOpening column) s' f)
    {ts : List Token} (hts : ts.map Token.lexeme = .opening :: lexemes ++ [.closing])
    (hprevious : s.previous ≠ .closing) : ∃ s', s.Runs ts s' ∧ Adds s s' f := by
  obtain ⟨opening, rest, rfl, hopening, hrest⟩ := List.map_eq_cons_iff.mp hts
  obtain ⟨inner, last, rfl, hlexemes, hlast⟩ := List.map_eq_append_iff.mp hrest
  obtain ⟨closing, rfl, hclosing⟩ := List.map_eq_singleton_iff.mp hlast
  obtain ⟨s', hruns, hadds⟩ := hinner opening.column inner hlexemes
  have hopen : s.accept opening = .ok (s.afterOpening opening.column) := by
    rw [State.accept, hopening]
    exact State.acceptOpening_eq_ok_iff.mpr ⟨hprevious, rfl⟩
  have hclose : s'.accept closing = .ok (s'.afterClosing s.groups) := by
    rw [State.accept, hclosing]
    exact State.acceptClosing_eq_ok_iff.mpr ⟨hadds.mayEnd, _, _, hadds.groups_eq, rfl⟩
  refine ⟨s'.afterClosing s.groups, ?_, ⟨rfl, Or.inr rfl, ?_⟩⟩
  · exact State.runs_cons_iff.mpr
      ⟨_, hopen, hruns.append (State.runs_singleton_iff.mpr hclose)⟩
  · rw [State.store_of_not_pending (s := s'.afterClosing s.groups) s'.pending_store]
    exact hadds.form_eq

/-- A term after a sign: the terms before are stored, and the sign is one of its factors. -/
theorem runs_signed {s s' : State} {sign : Sign} {t : Token} {ts : List Token} {f : LinearForm}
    (ht : t.lexeme = sign.lexeme) (hprevious : s.previous ≠ .sign ∧ s.previous ≠ .star)
    (hruns : (s.afterSign sign).Runs ts s')
    (hadds : Adds (s.afterSign sign) s' ((s.afterSign sign).product.form * f)) :
    s.Runs (t :: ts) s' ∧ s'.groups = s.groups ∧ s'.MayEnd ∧
      s'.store.form = s.store.form + (enclosing s.groups).form * sign.value f := by
  refine ⟨State.runs_cons_iff.mpr ⟨_, accept_sign ht hprevious, hruns⟩, ?_, hadds.mayEnd, ?_⟩
  · exact hadds.groups_eq.trans s.groups_store
  · rw [← Product.form_signed]
    exact hadds.form_eq

mutual

theorem Term.exists_runs {s : State} {t : Term} {ts : List Token}
    (hts : ts.map Token.lexeme = t.lexemes) (hnumbers : HasNumbers t.lexemes)
    (hprevious : s.previous ≠ .closing) (hlinear : t.IsLinear s.product.isBound) :
    ∃ s', s.Runs ts s' ∧ Adds s s' (s.product.form * t.value) := by
  cases t with
  | factors p =>
      obtain ⟨product, hruns, hform, -⟩ := Factors.exists_runs hts hnumbers hprevious hlinear
      refine ⟨_, hruns, rfl, Or.inl rfl, ?_⟩
      rw [State.form_store_of_pending rfl]
      exact congrArg (s.form + ·) hform
  | group inner =>
      refine exists_runs_group (fun column ts hts => ?_) hts hprevious
      have hinner := (hasNumbers_append.mp (hasNumbers_cons.mp hnumbers).2).1
      exact Expression.exists_runs (s := s.afterOpening column) hts hinner ⟨Or.inr rfl, rfl, rfl⟩
        hlinear
  | scaled p star inner =>
      obtain ⟨hnumbers, hgroup⟩ := hasNumbers_append.mp hnumbers
      obtain ⟨ts, group, rfl, hts, hlast⟩ := List.map_eq_append_iff.mp hts
      obtain ⟨front, middle, rfl, hfront, hmiddle⟩ := List.map_eq_append_iff.mp hts
      obtain ⟨product, hruns, hform, hbound⟩ :=
        Factors.exists_runs hfront (hasNumbers_append.mp hnumbers).1 hprevious hlinear.1
      have hstar : (s.afterFactor product).Runs middle (afterStar (s.afterFactor product) star) :=
        runs_star hmiddle rfl
      have hlinear' : inner.IsLinear product.isBound := by
        rw [hbound]
        exact hlinear.2
      have hinner := (hasNumbers_append.mp (hasNumbers_cons.mp hgroup).2).1
      obtain ⟨s', hrest, hadds⟩ := exists_runs_group (s := afterStar (s.afterFactor product) star)
        (f := product.form * inner.value) (fun column ts hts => Expression.exists_runs
          (s := (afterStar (s.afterFactor product) star).afterOpening column) hts hinner
          ⟨Or.inr rfl, rfl, rfl⟩ hlinear')
        hlast (previous_afterStar star)
      refine ⟨s', (hruns.append hstar).append hrest, hadds.groups_eq, hadds.mayEnd, ?_⟩
      calc s'.store.form
        _ = s.form + product.form * inner.value := hadds.form_eq
        _ = s.form + s.product.form * p.value * inner.value := by rw [hform]
        _ = s.form + s.product.form * (p.value * inner.value) := by rw [LinearForm.mul_assoc]

theorem Expression.exists_runs {s : State} {e : Expression} {ts : List Token}
    (hts : ts.map Token.lexeme = e.lexemes) (hnumbers : HasNumbers e.lexemes)
    (hstarts : Starts s) (hlinear : e.IsLinear s.product.isBound) :
    ∃ s', s.Runs ts s' ∧ Adds s s' (s.product.form * e.value) := by
  cases e with
  | term t =>
      exact Term.exists_runs (t := t) hts hnumbers (hstarts.previous_ne (by simp)) hlinear
  | signed sign t =>
      obtain ⟨first, ts, rfl, hfirst, hts⟩ := List.map_eq_cons_iff.mp hts
      have hlinear' : t.IsLinear (s.afterSign sign).product.isBound := by
        rw [State.afterSign, Product.isBound_signed, ← hstarts.product_eq]
        exact hlinear
      obtain ⟨s', hruns, hadds⟩ := Term.exists_runs (s := s.afterSign sign) hts
        (hasNumbers_cons.mp hnumbers).2 (by simp [State.afterSign]) hlinear'
      obtain ⟨hruns, hgroups, hend, hform⟩ := runs_signed hfirst
        ⟨hstarts.previous_ne (by simp), hstarts.previous_ne (by simp)⟩ hruns hadds
      refine ⟨s', hruns, hgroups, hend, ?_⟩
      rw [hform, State.store_of_not_pending hstarts.not_pending, ← hstarts.product_eq]
      rfl
  | more before sign t =>
      obtain ⟨hbefore, hafter⟩ := hasNumbers_append.mp hnumbers
      obtain ⟨front, rest, rfl, hfront, hrest⟩ := List.map_eq_append_iff.mp hts
      obtain ⟨first, ts, rfl, hfirst, hts⟩ := List.map_eq_cons_iff.mp hrest
      obtain ⟨middle, hruns, hadds⟩ := Expression.exists_runs hfront hbefore hstarts hlinear.1
      -- The sign stores these terms, and the product is again that of the open groups.
      have hlinear' : t.IsLinear (middle.afterSign sign).product.isBound := by
        rw [State.afterSign, Product.isBound_signed, hadds.groups_eq, ← hstarts.product_eq]
        exact hlinear.2
      obtain ⟨s', hruns', hadds'⟩ := Term.exists_runs (s := middle.afterSign sign) hts
        (hasNumbers_cons.mp hafter).2 (by simp [State.afterSign]) hlinear'
      obtain ⟨hruns', hgroups, hend, hform⟩ := runs_signed hfirst
        ⟨hadds.mayEnd.previous_ne (by simp), hadds.mayEnd.previous_ne (by simp)⟩ hruns' hadds'
      refine ⟨s', hruns.append hruns', hgroups.trans hadds.groups_eq, hend, ?_⟩
      calc s'.store.form
        _ = middle.store.form + s.product.form * sign.value t.value := by
              rw [hform, hadds.groups_eq, hstarts.product_eq]
        _ = s.form + s.product.form * before.value + s.product.form * sign.value t.value := by
              rw [hadds.form_eq]
        _ = s.form + s.product.form * (before.value + sign.value t.value) := by
              rw [LinearForm.add_assoc, LinearForm.mul_add]

end

/-- The tokens of a linear expression are a side, and its form is the value. -/
theorem reads_of_lexemes {e : Expression} {ts : List Token}
    (hts : ts.map Token.lexeme = e.lexemes) (hnumbers : HasNumbers e.lexemes)
    (hlinear : e.IsLinear false) : Reads ts e.value := by
  obtain ⟨s, hruns, hadds⟩ := Expression.exists_runs (s := .initial) hts hnumbers
    ⟨Or.inl rfl, rfl, rfl⟩ hlinear
  refine ⟨s, hruns, hadds.mayEnd, hadds.groups_eq, ?_⟩
  calc e.value
    _ = .ofNumber 1 * e.value := (LinearForm.one_mul _).symm
    _ = .zero + .ofNumber 1 * e.value := (LinearForm.zero_add _).symm
    _ = s.store.form := hadds.form_eq.symm

end LinearSystems.Grammar
