import LinearSystems.Proofs.FormArithmetic
import LinearSystems.Proofs.Grammar
import LinearSystems.Proofs.Traversals
import LinearSystems.Side

/-!
# Runs over a side

What one token does to the state of a side, and what reading a whole text comes to: two runs
over tokens, one on each side of the equals sign, that both end where a side may end.

* `accept…_eq_ok_iff`: when a token is accepted, and what the state is then.
* `State.Finishes`: a side may end here, with the given form.
* `Side.ofText_eq_ok_iff`, `Sides.ofText_eq_ok_iff`: the texts that are read, by their runs.
-/

namespace LinearSystems.Side

open Text

/-! ## Products as forms -/

namespace Product

/-- The form that a product is. -/
def form (p : Product) : LinearForm :=
  match p.unknown with
  | none => .ofNumber p.scale
  | some name => .ofTerm name p.scale

/-- Whether a product has an unknown. -/
def isBound (p : Product) : Bool := p.unknown.isSome

def named (p : Product) (name : String) : Product := { p with unknown := some name }

/-- The product after a sign. -/
def signed (p : Product) : Grammar.Sign → Product
  | .plus => p
  | .minus => p.negated

@[simp] theorem isBound_times (p : Product) (q : Rat) : (p.times q).isBound = p.isBound := rfl

@[simp] theorem isBound_named (p : Product) (name : String) : (p.named name).isBound = true := rfl

@[simp] theorem isBound_signed (p : Product) (sign : Grammar.Sign) :
    (p.signed sign).isBound = p.isBound := by
  cases sign <;> rfl

theorem isBound_eq_false_iff {p : Product} : p.isBound = false ↔ p.unknown = none := by
  rw [isBound, Option.isSome_eq_false_iff, Option.isNone_iff_eq_none]

theorem form_times (p : Product) (q : Rat) : (p.times q).form = p.form * .ofNumber q := by
  obtain ⟨scale, unknown⟩ := p
  cases unknown with
  | none =>
      apply LinearForm.ext_find?
      · intro name
        simp [times, form]
      · simp [times, form]
  | some x =>
      apply LinearForm.ext_find?
      · intro name
        by_cases hname : name = x <;> simp [times, form, hname]
      · simp [times, form]

theorem form_named {p : Product} (h : p.isBound = false) (name : String) :
    (p.named name).form = p.form * .ofUnknown name := by
  obtain ⟨scale, unknown⟩ := p
  obtain rfl : unknown = none := isBound_eq_false_iff.mp h
  apply LinearForm.ext_find?
  · intro x
    by_cases hx : x = name <;> simp [named, form, hx]
  · simp [named, form]

theorem form_signed (p : Product) (sign : Grammar.Sign) (f : LinearForm) :
    (p.signed sign).form * f = p.form * sign.value f := by
  cases sign with
  | plus => rfl
  | minus =>
      have hnegated : p.negated = p.times (-1) := by
        rw [negated, times, mul_neg_one]
      rw [signed, hnegated, form_times, LinearForm.mul_assoc]
      rfl

end Product

/-! ## One token -/

/-- What terms are multiplied with, by the groups that are open. -/
def enclosing (groups : List Group) : Product :=
  match groups with
  | [] => .one
  | g :: _ => g.multiplier

namespace State

variable {s s' : State}

theorem multiplier_eq (s : State) : s.multiplier = enclosing s.groups := rfl

@[simp] theorem groups_store (s : State) : s.store.groups = s.groups := by
  unfold store
  split <;> rfl

@[simp] theorem pending_store (s : State) : s.store.pending = false := by
  unfold store
  split
  · rfl
  · next h => exact Bool.eq_false_iff.mpr h

theorem store_of_not_pending (h : s.pending = false) : s.store = s := by
  rw [store, h]
  rfl

theorem form_store_of_pending (h : s.pending = true) :
    s.store.form = s.form + s.product.form := by
  obtain ⟨groups, ⟨scale, unknown⟩, pending, form, previous⟩ := s
  obtain rfl : pending = true := h
  cases unknown with
  | none => exact form.addConstant_eq scale
  | some x => exact form.addTerm_eq x scale

/-- The state after a sign, with the terms before it stored. -/
def afterSign (s : State) (sign : Grammar.Sign) : State :=
  { s.store with product := (enclosing s.groups).signed sign, previous := .sign }

/-- The state after a factor that makes the running product the given one. -/
def afterFactor (s : State) (product : Product) : State :=
  { s with product := product, pending := true, previous := .factor }

/-- The state after an opening parenthesis in the given column. -/
def afterOpening (s : State) (column : Nat) : State :=
  { s with groups := ⟨s.product, column⟩ :: s.groups, pending := false, previous := .opening }

/-- The state after a closing parenthesis, with the given groups still open. -/
def afterClosing (s : State) (outer : List Group) : State :=
  { s.store with groups := outer, product := enclosing outer, previous := .closing }

theorem acceptSign_eq_ok_iff (sign : Grammar.Sign) {lexeme : Lexeme} :
    s.acceptSign lexeme (sign = .minus) = .ok s' ↔
      (s.previous ≠ .sign ∧ s.previous ≠ .star) ∧ s' = s.afterSign sign := by
  have hproduct : (if decide (sign = .minus) = true then s.multiplier.negated else s.multiplier) =
      (enclosing s.groups).signed sign := by
    cases sign <;> rfl
  rw [acceptSign, hproduct, afterSign]
  cases s.previous <;> simp [eq_comm (a := s')]

theorem acceptNumber_eq_ok_iff {text : String} : s.acceptNumber text = .ok s' ↔
    s.previous ≠ .closing ∧ ∃ q, Number.ofText? text.toList = some q ∧
      s' = s.afterFactor (s.product.times q) := by
  rw [acceptNumber]
  split
  · next h => simp [h]
  · next h => cases Number.ofText? text.toList <;> simp [h, afterFactor, eq_comm (a := s')]

theorem acceptName_eq_ok_iff {name : String} : s.acceptName name = .ok s' ↔
    s.previous ≠ .closing ∧ s.product.isBound = false ∧
      s' = s.afterFactor (s.product.named name) := by
  rw [acceptName, Product.isBound_eq_false_iff]
  split
  · next h => simp [h]
  · next h => cases s.product.unknown <;> simp [h, afterFactor, Product.named, eq_comm (a := s')]

theorem acceptStar_eq_ok_iff :
    s.acceptStar = .ok s' ↔ s.previous = .factor ∧ s' = { s with previous := .star } := by
  rw [acceptStar]
  split
  · next h => simp [h, eq_comm (a := s')]
  · next h => simp [h]

theorem acceptOpening_eq_ok_iff {column : Nat} : s.acceptOpening column = .ok s' ↔
    s.previous ≠ .closing ∧ s' = s.afterOpening column := by
  rw [acceptOpening]
  split
  · next h => simp [h]
  · next h => simp [h, afterOpening, eq_comm (a := s')]

/-- A term, or a group, may end here. -/
def MayEnd (s : State) : Prop := s.previous = .factor ∨ s.previous = .closing

theorem MayEnd.previous_ne (h : s.MayEnd) {previous : Previous}
    (hne : previous ≠ .factor ∧ previous ≠ .closing) : s.previous ≠ previous := by
  rcases h with h | h <;> rw [h]
  · exact hne.1.symm
  · exact hne.2.symm

theorem acceptClosing_eq_ok_iff : s.acceptClosing = .ok s' ↔
    s.MayEnd ∧ ∃ g outer, s.groups = g :: outer ∧ s' = s.afterClosing outer := by
  rw [acceptClosing, MayEnd, groups_store]
  cases s.previous <;> cases s.groups <;> simp [afterClosing, multiplier_eq, eq_comm (a := s')]

/-- A side may end here, with the given form. -/
def Finishes (s : State) (form : LinearForm) : Prop :=
  s.MayEnd ∧ s.groups = [] ∧ form = s.store.form

theorem finish_eq_ok_iff {column : Nat} {form : LinearForm} :
    s.finish column = .ok form ↔ s.Finishes form := by
  rw [finish, Finishes, MayEnd]
  cases s.previous <;> cases s.groups <;> simp [eq_comm (a := form)]

/-! ## Runs -/

/-- The tokens are accepted one after the other, from the one state to the other. -/
def Runs (s : State) (ts : List Token) (s' : State) : Prop := ts.foldlM accept s = .ok s'

variable {t : Token} {ts ts' : List Token} {form : LinearForm}

theorem runs_nil_iff : s.Runs [] s' ↔ s' = s := by
  rw [Runs, List.foldlM_nil, eq_comm (a := s')]
  exact Except.ok.injEq s s' ▸ Iff.rfl

theorem runs_cons_iff : s.Runs (t :: ts) s' ↔ ∃ next, s.accept t = .ok next ∧ next.Runs ts s' := by
  rw [Runs, List.foldlM_cons, bind_eq_ok_iff]
  rfl

theorem runs_append_iff :
    s.Runs (ts ++ ts') s' ↔ ∃ next, s.Runs ts next ∧ next.Runs ts' s' := by
  induction ts generalizing s with
  | nil => simp [runs_nil_iff]
  | cons t ts ih =>
      rw [List.cons_append, runs_cons_iff]
      simp only [ih, runs_cons_iff]
      constructor
      · rintro ⟨first, hfirst, next, hnext, hrest⟩
        exact ⟨next, ⟨first, hfirst, hnext⟩, hrest⟩
      · rintro ⟨next, ⟨first, hfirst, hnext⟩, hrest⟩
        exact ⟨first, hfirst, next, hnext, hrest⟩

theorem Runs.append {next : State} (h : s.Runs ts next) (h' : next.Runs ts' s') :
    s.Runs (ts ++ ts') s' :=
  runs_append_iff.mpr ⟨next, h, h'⟩

theorem runs_singleton_iff : s.Runs [t] s' ↔ s.accept t = .ok s' := by
  rw [runs_cons_iff]
  simp only [runs_nil_iff, exists_eq_right']

/-- An equals sign is never accepted. -/
theorem accept_equals (ht : t.lexeme = .equals) : s.accept t ≠ .ok s' := by
  rw [accept, ht]
  simp

end State

/-! ## Reading -/

/-- The tokens are a side with the given form. -/
def Reads (ts : List Token) (form : LinearForm) : Prop :=
  ∃ s, State.Runs .initial ts s ∧ s.Finishes form

theorem Reads.unique {ts : List Token} {form form' : LinearForm} (h : Reads ts form)
    (h' : Reads ts form') : form = form' := by
  obtain ⟨s, hruns, -, -, rfl⟩ := h
  obtain ⟨s', hruns', -, -, rfl⟩ := h'
  obtain rfl : s = s' := Except.ok.inj (hruns.symm.trans hruns')
  rfl

/-- What comes after a side: an equals sign, or nothing more at all. -/
def Stops (ending : Ending) : List Token → Prop
  | [] => ending.defect? = none
  | t :: _ => t.lexeme = .equals

section ReadFrom

variable {ending : Ending} {s s' : State} {t : Token} {ts front rest : List Token}
  {form : LinearForm}

theorem readFrom_of_stops (h : Stops ending ts) :
    readFrom ending s ts = (.ok form, rest) ↔ s.Finishes form ∧ rest = ts := by
  cases ts with
  | nil =>
      have hending : ending.defect? = none := h
      rw [readFrom, hending, Prod.ext_iff, State.finish_eq_ok_iff, eq_comm (a := rest)]
  | cons t ts =>
      have hequals : t.lexeme = .equals := h
      rw [readFrom, if_pos hequals, Prod.ext_iff, State.finish_eq_ok_iff, eq_comm (a := rest)]

theorem readFrom_cons_iff (ht : t.lexeme ≠ .equals) :
    readFrom ending s (t :: ts) = (.ok form, rest) ↔
      ∃ next, s.accept t = .ok next ∧ (⟨ts, ending⟩ : Scan).defect? = none ∧
        readFrom ending next ts = (.ok form, rest) := by
  rw [readFrom, if_neg ht]
  cases s.accept t with
  | error cause => simp
  | ok next => cases hdefect : (⟨ts, ending⟩ : Scan).defect? <;> simp

theorem readFrom_of_runs (hruns : s.Runs front s') (hform : s'.Finishes form)
    (hstops : Stops ending rest) : readFrom ending s (front ++ rest) = (.ok form, rest) := by
  induction front generalizing s with
  | nil =>
      obtain rfl := State.runs_nil_iff.mp hruns
      exact (readFrom_of_stops hstops).mpr ⟨hform, rfl⟩
  | cons t front ih =>
      obtain ⟨next, hnext, hruns⟩ := State.runs_cons_iff.mp hruns
      have ht : t.lexeme ≠ .equals := fun ht => State.accept_equals ht hnext
      refine (readFrom_cons_iff ht).mpr ⟨next, hnext, ?_, ih hruns⟩
      -- The text may only go on with a character that starts no token if no token is left.
      cases front with
      | nil =>
          cases rest with
          | nil => exact hstops
          | cons => rfl
      | cons => rfl

theorem exists_of_readFrom (h : readFrom ending s ts = (.ok form, rest)) :
    ∃ front s', ts = front ++ rest ∧ s.Runs front s' ∧ s'.Finishes form ∧ Stops ending rest := by
  induction ts generalizing s with
  | nil =>
      have hstops : Stops ending [] := by
        rw [readFrom] at h
        split at h
        · cases h
        · assumption
      obtain ⟨hform, rfl⟩ := (readFrom_of_stops hstops).mp h
      exact ⟨[], s, rfl, State.runs_nil_iff.mpr rfl, hform, hstops⟩
  | cons t ts ih =>
      by_cases ht : t.lexeme = .equals
      · have hstops : Stops ending (t :: ts) := ht
        obtain ⟨hform, rfl⟩ := (readFrom_of_stops hstops).mp h
        exact ⟨[], s, rfl, State.runs_nil_iff.mpr rfl, hform, hstops⟩
      · obtain ⟨next, hnext, -, hrest⟩ := (readFrom_cons_iff ht).mp h
        obtain ⟨front, s', rfl, hruns, hform, hstops⟩ := ih hrest
        exact ⟨t :: front, s', rfl, State.runs_cons_iff.mpr ⟨next, hnext, hruns⟩, hform, hstops⟩

/-- A side is read by a run over some tokens, after which reading stops. -/
theorem read_eq_ok_iff {after : Scan} : read ⟨ts, ending⟩ = (.ok form, after) ↔
    ∃ front rest, ts = front ++ rest ∧ Reads front form ∧ Stops ending rest ∧
      after = ⟨rest, ending⟩ := by
  obtain ⟨rest, ending'⟩ := after
  have hread : read ⟨ts, ending⟩ = (.ok form, ⟨rest, ending'⟩) ↔
      readFrom ending .initial ts = (.ok form, rest) ∧ ending' = ending := by
    rw [read, Prod.ext_iff, Prod.ext_iff, Scan.mk.injEq, eq_comm (a := ending'), and_assoc]
  rw [hread]
  constructor
  · rintro ⟨h, rfl⟩
    obtain ⟨front, s, hsplit, hruns, hform, hstops⟩ := exists_of_readFrom h
    exact ⟨front, rest, hsplit, ⟨s, hruns, hform⟩, hstops, rfl⟩
  · rintro ⟨front, rest, rfl, ⟨s, hruns, hform⟩, hstops, hafter⟩
    obtain ⟨rfl, rfl⟩ := Scan.mk.inj hafter
    exact ⟨readFrom_of_runs hruns hform hstops, rfl⟩

end ReadFrom

/-- A text is a side of its own if it consists of tokens alone, and these are a side. -/
theorem ofText_eq_ok_iff {text : String} {form : LinearForm} : ofText text = .ok form ↔
    (scan text).ending.defect? = none ∧ Reads (scan text).tokens form := by
  rw [ofText]
  obtain ⟨tokens, ending⟩ := scan text
  constructor
  · intro h
    rw [readAlone] at h
    split at h
    · cases h
    · next after hread =>
      obtain ⟨front, rest, rfl, hfront, hstops, rfl⟩ := read_eq_ok_iff.mp hread
      cases rest with
      | nil =>
          cases h
          rw [List.append_nil]
          exact ⟨hstops, hfront⟩
      | cons => cases h
  · rintro ⟨hending, hreads⟩
    have hread : read ⟨tokens, ending⟩ = (.ok form, ⟨[], ending⟩) :=
      read_eq_ok_iff.mpr ⟨tokens, [], (List.append_nil tokens).symm, hreads, hending, rfl⟩
    rw [readAlone, hread]

end LinearSystems.Side

namespace LinearSystems.Sides

open Text Side

theorem passEquals_eq_ok_iff {ts : List Token} {ending : Ending} {after : Scan} :
    passEquals ⟨ts, ending⟩ = .ok after ↔ ∃ t rest, ts = t :: rest ∧
      (⟨rest, ending⟩ : Scan).defect? = none ∧ after = ⟨rest, ending⟩ := by
  cases ts with
  | nil => simp [passEquals]
  | cons t rest =>
      cases hdefect : (⟨rest, ending⟩ : Scan).defect? <;>
        simp [passEquals, hdefect, eq_comm (a := after)]

/-- A text is read if it consists of tokens alone, and these are a side, an equals sign and
another side. -/
theorem ofText_eq_ok_iff {text : String} {sides : Sides} :
    ofText text = .ok sides ↔ (scan text).ending.defect? = none ∧
      ∃ front equals back, (scan text).tokens = front ++ equals :: back ∧
        equals.lexeme = .equals ∧ Reads front sides.left ∧ Reads back sides.right := by
  rw [ofText]
  obtain ⟨tokens, ending⟩ := scan text
  constructor
  · intro h
    rw [read] at h
    split at h
    · cases h
    · next left middle hleft =>
      obtain ⟨front, rest, rfl, hfront, hstops, rfl⟩ := Side.read_eq_ok_iff.mp hleft
      split at h
      · cases h
      · next after hafter =>
        obtain ⟨equals, rest, rfl, -, rfl⟩ := passEquals_eq_ok_iff.mp hafter
        split at h
        · cases h
        · next right last hright =>
          obtain ⟨back, rest, rfl, hback, hlast, rfl⟩ := Side.read_eq_ok_iff.mp hright
          cases rest with
          | nil =>
              cases h
              exact ⟨hlast, front, equals, back, by simp, hstops, hfront, hback⟩
          | cons => cases h
  · rintro ⟨hending, front, equals, back, rfl, hequals, hfront, hback⟩
    have hleft : Side.read ⟨front ++ equals :: back, ending⟩ =
        (.ok sides.left, ⟨equals :: back, ending⟩) :=
      Side.read_eq_ok_iff.mpr ⟨front, _, rfl, hfront, hequals, rfl⟩
    have hdefect : (⟨back, ending⟩ : Scan).defect? = none := by
      rw [Scan.defect?, hending, ite_self]
    have hpass : passEquals ⟨equals :: back, ending⟩ = .ok ⟨back, ending⟩ :=
      passEquals_eq_ok_iff.mpr ⟨equals, back, rfl, hdefect, rfl⟩
    have hright : Side.read ⟨back, ending⟩ = (.ok sides.right, ⟨[], ending⟩) :=
      Side.read_eq_ok_iff.mpr ⟨back, [], (List.append_nil back).symm, hback, hending, rfl⟩
    rw [read, hleft]
    simp only [hpass, hright]
    rfl

end LinearSystems.Sides
