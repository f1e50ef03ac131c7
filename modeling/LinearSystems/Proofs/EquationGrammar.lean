import LinearSystems.Proofs.GrammarPrefixes
import LinearSystems.Proofs.GrammarRuns

/-!
# The equations that are read

The texts that are read are those of the grammar, and the sides that come out are the values
of the trees. Since a text is read in one way only, all trees that it is written for have the
same value.

* `reads_iff`: the sides, by their trees.
* `Sides.IsWritten`: the lexemes of two linear trees with an equals sign between them.
* `Sides.ofText_follows_grammar`: the equations, by the trees of their sides.
-/

namespace LinearSystems

open Text Grammar

/-- The tokens are a side if they are written for a linear tree, and its form is the value. -/
theorem Side.reads_iff {ts : List Token} {form : LinearForm} : Side.Reads ts form ↔
    ∃ e : Expression, ts.map Token.lexeme = e.lexemes ∧ e.IsLinear false ∧
      HasNumbers e.lexemes ∧ form = e.value := by
  constructor
  · intro h
    obtain ⟨e, hts, hlinear, hnumbers⟩ := exists_expression_of_reads h
    exact ⟨e, hts, hlinear, hnumbers, h.unique (reads_of_lexemes hts hnumbers hlinear)⟩
  · rintro ⟨e, hts, hlinear, hnumbers, rfl⟩
    exact reads_of_lexemes hts hnumbers hlinear

theorem Text.Ending.defect?_eq_none_iff {ending : Ending} :
    ending.defect? = none ↔ ∃ column, ending = .finished column := by
  cases ending <;> simp [defect?]

namespace Sides

/-- The lexemes are an equation: those of two linear trees with an equals sign between them,
whose values are the sides. -/
def IsWritten (sides : Sides) (lexemes : List Lexeme) : Prop :=
  ∃ left right : Expression, lexemes = left.lexemes ++ .equals :: right.lexemes ∧
    (left.IsLinear false ∧ right.IsLinear false) ∧
    (HasNumbers left.lexemes ∧ HasNumbers right.lexemes) ∧ sides = ⟨left.value, right.value⟩

theorem ofText_eq_ok_iff_isWritten {text : String} {sides : Sides} :
    ofText text = .ok sides ↔ (∃ column, (scan text).ending = .finished column) ∧
      sides.IsWritten ((scan text).tokens.map Token.lexeme) := by
  rw [ofText_eq_ok_iff, Ending.defect?_eq_none_iff]
  apply and_congr_right
  intro _
  constructor
  · rintro ⟨front, equals, back, htokens, hequals, hfront, hback⟩
    obtain ⟨left, hleft, hlinear, hnumbers, hvalue⟩ := Side.reads_iff.mp hfront
    obtain ⟨right, hright, hlinear', hnumbers', hvalue'⟩ := Side.reads_iff.mp hback
    refine ⟨left, right, ?_, ⟨hlinear, hlinear'⟩, ⟨hnumbers, hnumbers'⟩, ?_⟩
    · rw [htokens, List.map_append, List.map_cons, hleft, hequals, hright]
    · rw [← hvalue, ← hvalue']
  · rintro ⟨left, right, hlexemes, ⟨hlinear, hlinear'⟩, ⟨hnumbers, hnumbers'⟩, rfl⟩
    obtain ⟨front, rest, htokens, hleft, hrest⟩ := List.map_eq_append_iff.mp hlexemes
    obtain ⟨equals, back, rfl, hequals, hright⟩ := List.map_eq_cons_iff.mp hrest
    exact ⟨front, equals, back, htokens, hequals,
      Side.reads_iff.mpr ⟨left, hleft, hlinear, hnumbers, rfl⟩,
      Side.reads_iff.mpr ⟨right, hright, hlinear', hnumbers', rfl⟩⟩

/-- **Reading follows the grammar.** An equation is read from a text exactly if the text
consists of tokens alone, and these are written for two linear trees with an equals sign
between them, whose literals are numbers. The sides are then the values of the trees. A value
has the unknowns that are written, also those that cancel, and as a number it is what the
linear tree is by sums and products of numbers. -/
theorem ofText_follows_grammar (place : Nat) (text : String) :
    (∀ sides, (ofText text).mapError (Error.malformed place) = .ok sides ↔
      (∃ column, (scan text).ending = .finished column) ∧
        sides.IsWritten ((scan text).tokens.map Token.lexeme)) ∧
    (∀ (e : Expression) (name : String),
      name ∈ e.value.unknowns ↔ Lexeme.name name ∈ e.lexemes) ∧
    ∀ (e : Expression) (x : String → Rat), e.IsLinear false → e.value.number x = e.number x := by
  refine ⟨fun sides => ?_, Expression.mem_unknowns_value_iff,
    fun e x hlinear => Expression.number_value x hlinear⟩
  exact mapError_eq_ok_iff.trans ofText_eq_ok_iff_isWritten

/-- The tree of `2(x - 3/4 y)`. -/
def groupTree : Expression :=
  .term (.scaled (.atom (.literal "2")) false
    (.more (.term (.factors (.atom (.unknown "x")))) .minus
      (.factors (.times (.atom (.literal "3/4")) false (.unknown "y")))))

/-- The tree of `x - x + 1,5`. -/
def cancelledTree : Expression :=
  .more (.more (.term (.factors (.atom (.unknown "x")))) .minus (.factors (.atom (.unknown "x"))))
    .plus (.factors (.atom (.literal "1,5")))

theorem ofText_follows_grammar_group :
    (ofText "2(x - 3/4 y) = x - x + 1,5").mapError (Error.malformed 1) =
      .ok ⟨⟨⟨[("x", 2), ("y", -3 / 2)], by decide⟩, 0⟩, ⟨⟨[("x", 0)], by decide⟩, 3 / 2⟩⟩ ∧
    groupTree.value.number (fun _ => 1) = groupTree.number fun _ => 1 := by
  have hnumbers : ∀ l : List Lexeme, (l.all fun a =>
      match a with
      | .number text => (Number.ofText? text.toList).isSome
      | _ => true) = true → HasNumbers l := by
    intro l hl text htext
    exact List.all_eq_true.mp hl _ htext
  have hlinear : groupTree.IsLinear false := ⟨rfl, rfl, rfl, rfl⟩
  refine ⟨((ofText_follows_grammar 1 _).1 _).mpr ⟨⟨27, by decide +kernel⟩, ?_⟩,
    (ofText_follows_grammar 1 "").2.2 groupTree _ hlinear⟩
  exact ⟨groupTree, cancelledTree, by decide +kernel, ⟨hlinear, ⟨rfl, rfl⟩, rfl⟩,
    ⟨hnumbers _ (by decide +kernel), hnumbers _ (by decide +kernel)⟩, by decide +kernel⟩

end Sides

end LinearSystems
