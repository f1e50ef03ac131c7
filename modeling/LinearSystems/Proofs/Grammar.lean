import LinearSystems.Number
import LinearSystems.Proofs.FormArithmetic
import LinearSystems.Text.Basic

/-!
# The grammar of equations

The sides of an equation as trees, with what is written for a tree and what it means, all by
recursion on the tree. Reading, by contrast, is one pass with a stack.

```text
expression = [sign] term {sign term}
term       = factors | group | factors ['*'] group
factors    = atom {['*'] atom}
group      = '(' expression ')'
atom       = literal | name
```

A tree is linear if no atom is an unknown where one was already multiplied: earlier in the
same term, or before an open group.

* `Expression.lexemes`, `Expression.value`, `Expression.IsLinear`.
* `Expression.mem_unknowns_value_iff`: the value has all unknowns that are written.
* `Expression.number_value`: the value of a linear tree is the number that the tree is, by
  sums and products of numbers.
-/

namespace LinearSystems.Grammar

open Text

/-! ## Trees -/

inductive Sign where
  | plus
  | minus
deriving DecidableEq

inductive Atom where
  | literal (text : String)
  | unknown (name : String)
deriving DecidableEq

/-- Atoms that are multiplied with each other, with stars between them or not. -/
inductive Factors where
  | atom (a : Atom)
  | times (before : Factors) (star : Bool) (a : Atom)
deriving DecidableEq

mutual

inductive Term where
  | factors (p : Factors)
  | group (inner : Expression)
  | scaled (p : Factors) (star : Bool) (inner : Expression)

inductive Expression where
  | term (t : Term)
  | signed (sign : Sign) (t : Term)
  | more (before : Expression) (sign : Sign) (t : Term)

end

/-! ## What is written -/

def Sign.lexeme : Sign → Lexeme
  | plus => .plus
  | minus => .minus

def Atom.lexeme : Atom → Lexeme
  | literal text => .number text
  | unknown name => .name name

def starLexemes (star : Bool) : List Lexeme := if star then [.star] else []

def Factors.lexemes : Factors → List Lexeme
  | atom a => [a.lexeme]
  | times before star a => before.lexemes ++ starLexemes star ++ [a.lexeme]

mutual

def Term.lexemes : Term → List Lexeme
  | .factors p => p.lexemes
  | .group inner => .opening :: inner.lexemes ++ [.closing]
  | .scaled p star inner =>
    p.lexemes ++ starLexemes star ++ (.opening :: inner.lexemes ++ [.closing])

def Expression.lexemes : Expression → List Lexeme
  | .term t => t.lexemes
  | .signed sign t => sign.lexeme :: t.lexemes
  | .more before sign t => before.lexemes ++ sign.lexeme :: t.lexemes

end

/-! ## What it means -/

/-- The number of a literal; zero for a text that is no number. -/
def literalValue (text : String) : Rat := (Number.ofText? text.toList).getD 0

def Sign.value (f : LinearForm) : Sign → LinearForm
  | plus => f
  | minus => .ofNumber (-1) * f

def Atom.value : Atom → LinearForm
  | literal text => .ofNumber (literalValue text)
  | unknown name => .ofUnknown name

def Factors.value : Factors → LinearForm
  | atom a => a.value
  | times before _ a => before.value * a.value

mutual

def Term.value : Term → LinearForm
  | .factors p => p.value
  | .group inner => inner.value
  | .scaled p _ inner => p.value * inner.value

def Expression.value : Expression → LinearForm
  | .term t => t.value
  | .signed sign t => sign.value t.value
  | .more before sign t => before.value + sign.value t.value

end

/-! ## Numbers of trees -/

def Sign.number (q : Rat) : Sign → Rat
  | plus => q
  | minus => -q

def Atom.number (x : String → Rat) : Atom → Rat
  | literal text => literalValue text
  | unknown name => x name

def Factors.number (x : String → Rat) : Factors → Rat
  | atom a => a.number x
  | times before _ a => before.number x * a.number x

mutual

/-- The number of a term, where every unknown is a number. -/
def Term.number (x : String → Rat) : Term → Rat
  | .factors p => p.number x
  | .group inner => inner.number x
  | .scaled p _ inner => p.number x * inner.number x

/-- The number of an expression, where every unknown is a number. -/
def Expression.number (x : String → Rat) : Expression → Rat
  | .term t => t.number x
  | .signed sign t => sign.number (t.number x)
  | .more before sign t => before.number x + sign.number (t.number x)

end

/-! ## What is allowed -/

def Atom.isUnknown : Atom → Bool
  | literal _ => false
  | unknown _ => true

def Factors.hasUnknown : Factors → Bool
  | atom a => a.isUnknown
  | times before _ a => before.hasUnknown || a.isUnknown

/-- No atom is an unknown after another one; `bound` says that there was one before. -/
def Factors.IsLinear (bound : Bool) : Factors → Prop
  | atom a => (bound && a.isUnknown) = false
  | times before _ a =>
    before.IsLinear bound ∧ ((bound || before.hasUnknown) && a.isUnknown) = false

mutual

def Term.IsLinear (bound : Bool) : Term → Prop
  | .factors p => p.IsLinear bound
  | .group inner => inner.IsLinear bound
  | .scaled p _ inner => p.IsLinear bound ∧ inner.IsLinear (bound || p.hasUnknown)

def Expression.IsLinear (bound : Bool) : Expression → Prop
  | .term t => t.IsLinear bound
  | .signed _ t => t.IsLinear bound
  | .more before _ t => before.IsLinear bound ∧ t.IsLinear bound

end

/-- All literals that are written are numbers. -/
def HasNumbers (l : List Lexeme) : Prop :=
  ∀ text, Lexeme.number text ∈ l → (Number.ofText? text.toList).isSome

theorem hasNumbers_append {l l' : List Lexeme} :
    HasNumbers (l ++ l') ↔ HasNumbers l ∧ HasNumbers l' := by
  simp only [HasNumbers, List.mem_append, or_imp, forall_and]

theorem hasNumbers_cons {lexeme : Lexeme} {l : List Lexeme} :
    HasNumbers (lexeme :: l) ↔ HasNumbers [lexeme] ∧ HasNumbers l :=
  hasNumbers_append (l := [lexeme])

/-! ## The unknowns of a value -/

theorem name_not_mem_starLexemes (name : String) (star : Bool) :
    Lexeme.name name ∉ starLexemes star := by
  cases star <;> simp [starLexemes]

@[simp] theorem Sign.lexeme_ne_name (sign : Sign) (name : String) :
    Lexeme.name name ≠ sign.lexeme := by
  cases sign <;> simp [Sign.lexeme]

@[simp] theorem Sign.mem_unknowns_value (sign : Sign) (f : LinearForm) (name : String) :
    name ∈ (sign.value f).unknowns ↔ name ∈ f.unknowns := by
  cases sign with
  | plus => rfl
  | minus =>
      rw [Sign.value, LinearForm.mem_unknowns_mul]
      exact or_iff_right (LinearForm.mem_unknowns_ofNumber _)

theorem Atom.mem_unknowns_value (a : Atom) (name : String) :
    name ∈ a.value.unknowns ↔ Lexeme.name name = a.lexeme := by
  cases a with
  | literal text => simp [value, lexeme, LinearForm.mem_unknowns_ofNumber]
  | unknown x => simp [value, lexeme, LinearForm.mem_unknowns_ofUnknown]

theorem Factors.mem_unknowns_value (p : Factors) (name : String) :
    name ∈ p.value.unknowns ↔ Lexeme.name name ∈ p.lexemes := by
  induction p with
  | atom a => simp [value, lexemes, a.mem_unknowns_value]
  | times before star a ih =>
      simp [value, lexemes, LinearForm.mem_unknowns_mul, ih, a.mem_unknowns_value,
        name_not_mem_starLexemes]

mutual

theorem Term.mem_unknowns_value (t : Term) (name : String) :
    name ∈ t.value.unknowns ↔ Lexeme.name name ∈ t.lexemes := by
  cases t with
  | factors p => exact p.mem_unknowns_value name
  | group inner => simp [Term.value, Term.lexemes, inner.mem_unknowns_value_iff name]
  | scaled p star inner =>
      simp [Term.value, Term.lexemes, LinearForm.mem_unknowns_mul, p.mem_unknowns_value,
        inner.mem_unknowns_value_iff name, name_not_mem_starLexemes]

theorem Expression.mem_unknowns_value_iff (e : Expression) (name : String) :
    name ∈ e.value.unknowns ↔ Lexeme.name name ∈ e.lexemes := by
  cases e with
  | term t => exact t.mem_unknowns_value name
  | signed sign t => simp [Expression.value, Expression.lexemes, t.mem_unknowns_value name]
  | more before sign t =>
      simp [Expression.value, Expression.lexemes, LinearForm.mem_unknowns_add,
        before.mem_unknowns_value_iff name, t.mem_unknowns_value name]

end

/-! ## The number of a value -/

theorem Sign.coefficients_value {f : LinearForm} (h : f.coefficients = ∅) (sign : Sign) :
    (sign.value f).coefficients = ∅ := by
  cases sign with
  | plus => exact h
  | minus => exact LinearForm.coefficients_mul rfl h

theorem Sign.number_value (x : String → Rat) (f : LinearForm) (sign : Sign) :
    (sign.value f).number x = sign.number (f.number x) := by
  cases sign with
  | plus => rfl
  | minus =>
      rw [value, LinearForm.number_mul x (Or.inl rfl), LinearForm.number_ofNumber, neg_one_mul]
      rfl

theorem Atom.coefficients_value {a : Atom} (h : a.isUnknown = false) :
    a.value.coefficients = ∅ := by
  cases a with
  | literal text => rfl
  | unknown name => cases h

theorem Factors.coefficients_value {p : Factors} (h : p.hasUnknown = false) :
    p.value.coefficients = ∅ := by
  induction p with
  | atom a => exact Atom.coefficients_value h
  | times before star a ih =>
      obtain ⟨hbefore, ha⟩ := Bool.or_eq_false_iff.mp h
      exact LinearForm.coefficients_mul (ih hbefore) (Atom.coefficients_value ha)

theorem Factors.hasUnknown_of_bound {p : Factors} (h : p.IsLinear true) : p.hasUnknown = false := by
  induction p with
  | atom a => exact h
  | times before star a ih =>
      have ha : a.isUnknown = false := h.2
      rw [hasUnknown, ih h.1, ha]
      rfl

mutual

/-- Inside a group that is multiplied with an unknown there are no unknowns. -/
theorem Term.coefficients_value {t : Term} (h : t.IsLinear true) : t.value.coefficients = ∅ := by
  cases t with
  | factors p => exact Factors.coefficients_value (Factors.hasUnknown_of_bound h)
  | group inner => exact Expression.coefficients_value (e := inner) h
  | scaled p star inner =>
      exact LinearForm.coefficients_mul
        (Factors.coefficients_value (Factors.hasUnknown_of_bound h.1))
        (Expression.coefficients_value (e := inner) h.2)

theorem Expression.coefficients_value {e : Expression} (h : e.IsLinear true) :
    e.value.coefficients = ∅ := by
  cases e with
  | term t => exact Term.coefficients_value (t := t) h
  | signed sign t => exact sign.coefficients_value (Term.coefficients_value (t := t) h)
  | more before sign t =>
      exact LinearForm.coefficients_add (Expression.coefficients_value h.1)
        (sign.coefficients_value (Term.coefficients_value h.2))

end

section Number

variable (x : String → Rat)

theorem Atom.number_value (a : Atom) : a.value.number x = a.number x := by
  cases a with
  | literal text => exact LinearForm.number_ofNumber x _
  | unknown name => exact LinearForm.number_ofUnknown x

theorem Factors.number_value {bound : Bool} {p : Factors} (h : p.IsLinear bound) :
    p.value.number x = p.number x := by
  induction p with
  | atom a => exact a.number_value x
  | times before star a ih =>
      have hnone : before.value.coefficients = ∅ ∨ a.value.coefficients = ∅ := by
        rcases Bool.and_eq_false_iff.mp h.2 with hbefore | ha
        · exact Or.inl (coefficients_value (Bool.or_eq_false_iff.mp hbefore).2)
        · exact Or.inr (Atom.coefficients_value ha)
      rw [value, LinearForm.number_mul x hnone, ih h.1, a.number_value x]
      rfl

mutual

theorem Term.number_value {bound : Bool} {t : Term} (h : t.IsLinear bound) :
    t.value.number x = t.number x := by
  cases t with
  | factors p => exact Factors.number_value x h
  | group inner => exact Expression.number_value (e := inner) h
  | scaled p star inner =>
      have hnone : p.value.coefficients = ∅ ∨ inner.value.coefficients = ∅ := by
        cases hp : p.hasUnknown with
        | false => exact Or.inl (Factors.coefficients_value hp)
        | true =>
            have hinner := h.2
            rw [hp, Bool.or_true] at hinner
            exact Or.inr (Expression.coefficients_value hinner)
      rw [Term.value, LinearForm.number_mul x hnone, Factors.number_value x h.1,
        Expression.number_value h.2]
      rfl

/-- The value of a linear expression is what the expression says, by sums and products of
numbers. -/
theorem Expression.number_value {bound : Bool} {e : Expression} (h : e.IsLinear bound) :
    e.value.number x = e.number x := by
  cases e with
  | term t => exact Term.number_value (t := t) h
  | signed sign t =>
      rw [Expression.value, sign.number_value, Term.number_value (t := t) h]
      rfl
  | more before sign t =>
      rw [Expression.value, LinearForm.number_add, sign.number_value,
        Expression.number_value h.1, Term.number_value h.2]
      rfl

end

end Number

end LinearSystems.Grammar
