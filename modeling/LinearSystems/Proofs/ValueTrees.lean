import LinearSystems.Proofs.Grammar
import LinearSystems.Proofs.NumberTexts
import LinearSystems.Proofs.ValueNumbers
import Mathlib.Algebra.Order.Ring.Abs

/-!
# Trees of values

The terms of a value as a tree of the grammar: a sum of multiples of symbols, each a literal,
an unknown, or a literal and an unknown, with the sign of its coefficient in front. How the
literals are written is left open, as long as they are numbers.

* `Expression.extended`: an expression with more terms.
* `sumTree`: the tree of a list of terms.
* `number_sumTree`: the tree is the number that the terms are.
-/

namespace LinearSystems.Grammar

open Text

/-! ## More terms -/

/-- The expression with more terms at its end. -/
def Expression.extended (e : Expression) (l : List (Sign × Term)) : Expression :=
  l.foldl (fun before (sign, t) => .more before sign t) e

theorem Expression.lexemes_extended (e : Expression) (l : List (Sign × Term)) :
    (e.extended l).lexemes = e.lexemes ++ l.flatMap fun (sign, t) => sign.lexeme :: t.lexemes := by
  induction l generalizing e with
  | nil => exact (List.append_nil _).symm
  | cons st l ih =>
      rw [extended, List.foldl_cons, ← extended, ih, List.flatMap_cons, ← List.append_assoc]
      rfl

theorem Expression.isLinear_extended {bound : Bool} {e : Expression} (he : e.IsLinear bound)
    {l : List (Sign × Term)} (hl : ∀ st ∈ l, st.2.IsLinear bound) :
    (e.extended l).IsLinear bound := by
  induction l generalizing e with
  | nil => exact he
  | cons st l ih =>
      rw [List.forall_mem_cons] at hl
      exact ih (e := .more e st.1 st.2) ⟨he, hl.1⟩ hl.2

theorem Expression.number_extended (x : String → Rat) (e : Expression) (l : List (Sign × Term)) :
    (e.extended l).number x =
      e.number x + (l.map fun (sign, t) => sign.number (t.number x)).sum := by
  induction l generalizing e with
  | nil => exact (add_zero _).symm
  | cons st l ih =>
      rw [extended, List.foldl_cons, ← extended, ih, List.map_cons, List.sum_cons, ← add_assoc]
      rfl

/-! ## Terms -/

/-- The sign that is written for a coefficient. -/
def Sign.of (q : Rat) : Sign := if q < 0 then .minus else .plus

theorem Sign.number_of (q r : Rat) : (Sign.of q).number (|q| * r) = q * r := by
  rw [of]
  split
  · next h => rw [number, abs_of_neg h, neg_mul, neg_neg]
  · next h => rw [number, abs_of_nonneg (not_lt.mp h)]

section Terms

variable (literal : Rat → List Char)

/-- The factors of a term, where `literal` says how coefficients are written without their
sign. -/
def termFactors : Symbol × Rat → Factors
  | (.constant, q) => .atom (.literal (String.ofList (literal q)))
  | (.unknown name, q) =>
    if q = 1 ∨ q = -1 then .atom (.unknown name)
    else .times (.atom (.literal (String.ofList (literal q)))) false (.unknown name)

/-- An expression of one term, with its sign only if that is a minus sign. -/
def leading (e : Symbol × Rat) : Expression :=
  if e.2 < 0 then .signed .minus (.factors (termFactors literal e))
  else .term (.factors (termFactors literal e))

/-- The sum of terms, zero if there are none. -/
def sumTree : List (Symbol × Rat) → Expression
  | [] => .term (.factors (.atom (.literal "0")))
  | e :: rest => (leading literal e).extended
      (rest.map fun e => (Sign.of e.2, .factors (termFactors literal e)))

variable {literal} {e : Symbol × Rat} {l : List (Symbol × Rat)}

theorem isLinear_termFactors : (termFactors literal e).IsLinear false := by
  obtain ⟨_ | name, q⟩ := e
  · rfl
  · rw [termFactors]
    split
    · rfl
    · exact ⟨rfl, rfl⟩

theorem isLinear_leading : (leading literal e).IsLinear false := by
  rw [leading]
  split <;> exact isLinear_termFactors

theorem isLinear_sumTree : (sumTree literal l).IsLinear false := by
  cases l with
  | nil => rfl
  | cons e rest =>
      apply Expression.isLinear_extended isLinear_leading
      intro st hst
      obtain ⟨e, -, rfl⟩ := List.mem_map.mp hst
      exact isLinear_termFactors

theorem name_mem_lexemes_termFactors {name : String} :
    Lexeme.name name ∈ (termFactors literal e).lexemes ↔ e.1 = .unknown name := by
  obtain ⟨_ | x, q⟩ := e
  · simp [termFactors, Factors.lexemes, Atom.lexeme]
  · rw [termFactors]
    split <;> simp [Factors.lexemes, Atom.lexeme, starLexemes, eq_comm]

theorem lexemes_leading : (leading literal e).lexemes =
    (if e.2 < 0 then [.minus] else []) ++ (termFactors literal e).lexemes := by
  rw [leading]
  split <;> rfl

theorem lexemes_sumTree_cons : (sumTree literal (e :: l)).lexemes =
    (leading literal e).lexemes ++
      l.flatMap fun e => (Sign.of e.2).lexeme :: (termFactors literal e).lexemes := by
  rw [sumTree, Expression.lexemes_extended, List.flatMap_map]
  rfl

theorem forall_mem_lexemes_sumTree {P : Lexeme → Prop} (hzero : P (.number "0"))
    (hsign : ∀ sign : Sign, P sign.lexeme)
    (hterm : ∀ e ∈ l, ∀ a ∈ (termFactors literal e).lexemes, P a) :
    ∀ a ∈ (sumTree literal l).lexemes, P a := by
  cases l with
  | nil => exact List.forall_mem_singleton.mpr hzero
  | cons e rest =>
      rw [List.forall_mem_cons] at hterm
      intro a ha
      rw [lexemes_sumTree_cons, lexemes_leading, List.mem_append, List.mem_append,
        List.mem_flatMap] at ha
      rcases ha with (ha | ha) | ⟨e', he', ha⟩
      · split at ha
        · obtain rfl := List.mem_singleton.mp ha
          exact hsign .minus
        · cases ha
      · exact hterm.1 a ha
      · rcases List.mem_cons.mp ha with rfl | ha
        · exact hsign _
        · exact hterm.2 e' he' a ha

theorem name_mem_lexemes_sumTree {name : String} :
    Lexeme.name name ∈ (sumTree literal l).lexemes ↔ .unknown name ∈ l.map Prod.fst := by
  cases l with
  | nil => simp [sumTree, Expression.lexemes, Term.lexemes, Factors.lexemes, Atom.lexeme]
  | cons e rest =>
      have hsign : Lexeme.name name ∉ if e.2 < 0 then [Lexeme.minus] else [] := by
        split <;> simp
      rw [lexemes_sumTree_cons, lexemes_leading, List.append_assoc, List.mem_append,
        or_iff_right hsign, List.mem_append, name_mem_lexemes_termFactors, List.mem_flatMap,
        List.map_cons, List.mem_cons, List.mem_map, eq_comm]
      simp only [List.mem_cons, Sign.lexeme_ne_name, false_or, name_mem_lexemes_termFactors]

theorem number_termFactors (x : String → Rat) (h : Number.ofText? (literal e.2) = some |e.2|) :
    (termFactors literal e).number x = |e.2| * e.1.number x := by
  have hliteral : literalValue (String.ofList (literal e.2)) = |e.2| := by
    rw [literalValue, String.toList_ofList, h, Option.getD_some]
  obtain ⟨_ | name, q⟩ := e
  · exact hliteral.trans (mul_one _).symm
  · rw [termFactors]
    split
    · next hone =>
      have habs : |q| = 1 := by
        rcases hone with rfl | rfl
        · exact abs_one
        · rw [abs_neg, abs_one]
      exact (one_mul (x name)).symm.trans (by rw [habs]; rfl)
    · exact congrArg (· * x name) hliteral

theorem number_leading (x : String → Rat) (h : Number.ofText? (literal e.2) = some |e.2|) :
    (leading literal e).number x = e.2 * e.1.number x := by
  have hsign := Sign.number_of e.2 (e.1.number x)
  rw [← number_termFactors x h] at hsign
  rw [leading]
  split
  · next hneg => rwa [Sign.of, if_pos hneg] at hsign
  · next hneg => rwa [Sign.of, if_neg hneg] at hsign

/-- The tree of a list of terms is the number that the terms are. -/
theorem number_sumTree (x : String → Rat)
    (h : ∀ e ∈ l, Number.ofText? (literal e.2) = some |e.2|) :
    (sumTree literal l).number x = Table.totalOf (Symbol.number x) l := by
  cases l with
  | nil => 
      have hzero : literalValue "0" = 0 := by decide +kernel
      exact hzero
  | cons e rest =>
      rw [List.forall_mem_cons] at h
      rw [sumTree, Expression.number_extended, number_leading x h.1, Table.totalOf_cons,
        List.map_map, Table.totalOf]
      congr 2
      apply List.map_congr_left
      intro e he
      rw [← Sign.number_of e.2 (e.1.number x), ← number_termFactors x (h.2 e he)]
      rfl

end Terms

end LinearSystems.Grammar
