import LinearSystems.Checked.Sides
import LinearSystems.Proofs.CheckedNumbers

/-!
# Reading never leaves the base level

The levels of a side that is read by checked steps are those of the groups that are open, on top
of the base level. A token does to them what it does to the groups, so the base level is always
there, and it is left by no closing parenthesis.

* `onBase`: the state with the base level below its groups.
* `accept_onBase`: one token.
* `readFrom_onBase`, `sidesOfText_eq`: sides and equations.
-/

namespace LinearSystems.Checked

open Text Side

/-- The state with the base level below the groups that are open. -/
def onBase (s : State) : State := { s with groups := s.groups ++ [baseLevel] }

@[simp] theorem previous_onBase (s : State) : (onBase s).previous = s.previous := rfl

@[simp] theorem product_onBase (s : State) : (onBase s).product = s.product := rfl

/-! ## Levels -/

theorem innermost_onBase (s : State) :
    ∃ level, innermost (onBase s) = .ok level ∧ level.multiplier = s.multiplier := by
  rw [innermost, State.multiplier, onBase]
  cases s.groups with
  | nil => exact ⟨baseLevel, rfl, rfl⟩
  | cons g outer => exact ⟨g, rfl, rfl⟩

theorem depth_onBase (s : State) : depth (onBase s) = .ok s.groups.length := by
  rw [depth, onBase, List.length_append, List.length_singleton,
    difference_of_le (Nat.le_add_left _ _), Nat.add_sub_cancel]

theorem leave_onBase {s : State} {g : Group} {outer : List Group} (h : s.groups = g :: outer) :
    leave (onBase s) = .ok (onBase { s with groups := outer }) := by
  rw [leave, onBase, onBase, h]
  cases outer <;> rfl

theorem store_onBase (s : State) : (onBase s).store = onBase s.store := by
  rw [State.store, State.store, onBase]
  split <;> rfl

/-! ## One token -/

theorem acceptSign_onBase (s : State) (lexeme : Lexeme) (isMinus : Bool) :
    acceptSign (onBase s) lexeme isMinus = .ok ((s.acceptSign lexeme isMinus).map onBase) := by
  obtain ⟨level, hlevel, hmultiplier⟩ := innermost_onBase s
  rw [acceptSign, State.acceptSign, previous_onBase, hlevel, store_onBase, ← hmultiplier]
  cases s.previous <;> rfl

theorem acceptNumber_onBase (s : State) (text : String) :
    acceptNumber (onBase s) text = .ok ((s.acceptNumber text).map onBase) := by
  rw [acceptNumber, State.acceptNumber, previous_onBase, number?_eq]
  split
  · rfl
  · cases Number.ofText? text.toList <;> rfl

theorem acceptName_onBase (s : State) (name : String) :
    (onBase s).acceptName name = (s.acceptName name).map onBase := by
  rw [State.acceptName, State.acceptName, previous_onBase, product_onBase]
  split
  · rfl
  · cases s.product.unknown <;> rfl

theorem acceptStar_onBase (s : State) : (onBase s).acceptStar = s.acceptStar.map onBase := by
  rw [State.acceptStar, State.acceptStar, previous_onBase]
  split <;> rfl

theorem acceptOpening_onBase (s : State) (column : Nat) :
    (onBase s).acceptOpening column = (s.acceptOpening column).map onBase := by
  rw [State.acceptOpening, State.acceptOpening, previous_onBase]
  split <;> rfl

theorem close_onBase_of_nil {s : State} (h : s.groups = []) :
    close (onBase s) = .ok (.error .unbalancedClosing) := by
  rw [close, depth_onBase, h]
  rfl

/-- Where a group is closed, one is open, so the base level stays. -/
theorem close_onBase_of_cons {s : State} {g : Group} {outer : List Group}
    (h : s.groups = g :: outer) : close (onBase s) =
      .ok (.ok (onBase { s with
        groups := outer
        product := { s with groups := outer }.multiplier
        previous := .closing })) := by
  obtain ⟨level, hlevel, hmultiplier⟩ := innermost_onBase { s with groups := outer }
  rw [close, depth_onBase, h]
  simp only [bind, Except.bind, List.length_cons, Nat.succ_ne_zero, if_false, leave_onBase h,
    hlevel, hmultiplier]
  rfl

theorem acceptClosing_onBase (s : State) :
    acceptClosing (onBase s) = .ok (s.acceptClosing.map onBase) := by
  rw [acceptClosing, State.acceptClosing, previous_onBase, store_onBase]
  cases hgroups : s.store.groups with
  | nil =>
      rw [close_onBase_of_nil hgroups]
      cases s.previous <;> rfl
  | cons g outer =>
      rw [close_onBase_of_cons hgroups]
      cases s.previous <;> rfl

theorem accept_onBase (s : State) (t : Token) :
    accept (onBase s) t = .ok ((s.accept t).map onBase) := by
  rw [accept, State.accept]
  cases t.lexeme with
  | name text => exact congrArg Except.ok (acceptName_onBase s text)
  | number text => exact acceptNumber_onBase s text
  | plus => exact acceptSign_onBase s .plus false
  | minus => exact acceptSign_onBase s .minus true
  | star => exact congrArg Except.ok (acceptStar_onBase s)
  | opening => exact congrArg Except.ok (acceptOpening_onBase s t.column)
  | closing => exact acceptClosing_onBase s
  | equals => rfl

theorem finish_onBase (s : State) (column : Nat) :
    finish (onBase s) column = .ok (s.finish column) := by
  rw [finish, State.finish, previous_onBase, depth_onBase, store_onBase]
  cases hgroups : s.groups with
  | nil => cases s.previous <;> rfl
  | cons g outer =>
      have hinnermost : innermost (onBase s) = .ok g := by
        rw [innermost, onBase, hgroups]
        rfl
      rw [hinnermost]
      cases s.previous <;> rfl

/-! ## Sides and equations -/

theorem readFrom_onBase (ending : Ending) (s : State) (ts : List Token) :
    readFrom ending (onBase s) ts = .ok (Side.readFrom ending s ts) := by
  induction ts generalizing s with
  | nil =>
      rw [readFrom, Side.readFrom, finish_onBase]
      cases ending.defect? <;> rfl
  | cons t ts ih =>
      rw [readFrom, Side.readFrom, finish_onBase, accept_onBase]
      split
      · rfl
      · cases s.accept t with
        | error cause => rfl
        | ok after =>
            simp only [bind, Except.bind, Except.map]
            cases (⟨ts, ending⟩ : Scan).defect? with
            | some defect => rfl
            | none => exact ih after

theorem readSide_eq (s : Scan) : readSide s = .ok (Side.read s) := by
  rw [readSide, Side.read, show initialState = onBase .initial from rfl, readFrom_onBase]
  rfl

theorem readSides_eq (s : Scan) : readSides s = .ok (Sides.read s) := by
  rw [readSides, Sides.read, readSide_eq]
  rcases Side.read s with ⟨defect | left, middle⟩
  · rfl
  · simp only [bind, Except.bind]
    cases Sides.passEquals middle with
    | error defect => rfl
    | ok after =>
        simp only [readSide_eq]
        rcases Side.read after with ⟨defect | right, rest⟩
        · rfl
        · simp only
          split <;> rfl

/-- No text makes reading an equation leave the base level or divide by zero. -/
theorem sidesOfText_eq (text : String) : sidesOfText text = .ok (Sides.ofText text) := by
  rw [sidesOfText, readSides_eq]
  rfl

end LinearSystems.Checked
