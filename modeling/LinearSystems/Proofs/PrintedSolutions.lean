import LinearSystems.Proofs.EquationGrammar
import LinearSystems.Proofs.ValueEquations
import LinearSystems.Proofs.WrittenValues

/-!
# Solutions that are written and solved again

The values of a solution, written as fractions, are the equations of a system again. Its
solution is the same: the values are read as they are written, and as equations they describe
what the system they come from was solved to.

* `Input.equations_text_eq_ok_iff`: the equations of lines of text.
* `Input.exists_system_of_solve_text`: the unknowns of lines of text have names that can be read.
* `Value.exists_text`: the text of a value is an equation, and its two sides are read from it.
* `Input.solve_text_of_values`: the values, as a system.
-/

namespace LinearSystems

open Text Grammar

/-! ## Lines of text -/

theorem Equation.ofText_eq_ok_iff {place : Nat} {line : String} {e : Equation} :
    ofText place line = .ok e ↔ ∃ sides, Sides.ofText line = .ok sides ∧ ofSides sides = e := by
  rw [ofText]
  cases Sides.ofText line <;> simp [Except.map, Except.mapError]

theorem Input.equations_text_eq_ok_iff {lines : List String} {es : List Equation} :
    (Input.text lines).equations = .ok es ↔ List.Forall₂
      (fun line e => ∃ sides, Sides.ofText line = .ok sides ∧ Equation.ofSides sides = e)
      lines es := by
  rw [equations, mapM_eq_ok_iff]
  simp only [Equation.ofText_eq_ok_iff]
  rw [← List.zipIdx_map_fst 1 lines, List.forall₂_map_left_iff, List.zipIdx_map_fst]

theorem Input.solve_text_of_sides {lines : List String} {list : List Sides}
    (h : List.Forall₂ (fun line sides => Sides.ofText line = .ok sides) lines list)
    (settings : Settings) : (Input.text lines).solve settings = solveSides settings list := by
  have hequations : (Input.text lines).equations = .ok (list.map Equation.ofSides) := by
    rw [equations_text_eq_ok_iff, List.forall₂_map_right_iff]
    exact h.imp fun line sides hline => ⟨sides, hline, rfl⟩
  rw [Input.solve, LinearSystem.ofInput, hequations]
  rfl

/-- Names in a text are proper. -/
theorem Equation.isProper_of_mem_unknowns {line : String} {sides : Sides}
    (h : Sides.ofText line = .ok sides) {name : String} (hname : name ∈ (ofSides sides).unknowns) :
    (Lexeme.name name).IsProper := by
  obtain ⟨-, left, right, htokens, -, -, rfl⟩ := Sides.ofText_eq_ok_iff_isWritten.mp h
  have hmem : Lexeme.name name ∈ (scan line).tokens.map Token.lexeme := by
    rw [htokens]
    rcases mem_unknowns_ofSides.mp hname with hname | hname
    · exact List.mem_append_left _ ((left.mem_unknowns_value_iff name).mp hname)
    · exact List.mem_append_right _
        (List.mem_cons_of_mem _ ((right.mem_unknowns_value_iff name).mp hname))
  obtain ⟨t, ht, hlexeme⟩ := List.mem_map.mp hmem
  exact hlexeme ▸ isProper_of_mem_scan ht

theorem Input.exists_system_of_solve_text {lines : List String} {settings : Settings}
    {solution : Solution} (h : (Input.text lines).solve settings = .ok solution) :
    ∃ s : LinearSystem, s.solve settings = .ok solution ∧
      ∀ name ∈ s.unknowns, (Lexeme.name name).IsProper := by
  obtain ⟨s, hs, hsolve⟩ := bind_eq_ok_iff.mp h
  obtain ⟨es, hequations, hsystem⟩ := bind_eq_ok_iff.mp (mapError_eq_ok_iff.mp hs)
  refine ⟨s, hsolve, fun name hname => ?_⟩
  obtain ⟨e, he, hname⟩ := LinearSystem.mem_unknowns.mp hname
  rw [LinearSystem.ofEquations_eq_ok_iff.mp hsystem] at he
  obtain ⟨line, -, sides, hread, rfl⟩ :=
    exists_mem_of_forall₂ (equations_text_eq_ok_iff.mp hequations) he
  exact Equation.isProper_of_mem_unknowns hread hname

/-! ## The values of a solution -/

/-- The text of a value is the unknown alone on the left, and its terms on the right. -/
theorem Value.exists_text {style : Number.Style} {literal : Rat → List Char} {v : Value}
    (hname : (Lexeme.name v.name).IsProper)
    (h : ∀ e ∈ v.shownTerms style, IsWritable style literal e) :
    ∃ text, v.text style = .ok text ∧ Sides.ofText (String.ofList text) =
      .ok ⟨.ofUnknown v.name, (sumTree literal (v.shownTerms style)).value⟩ := by
  obtain ⟨text, htext, hchars⟩ := Value.exists_expression h
  have hrun : v.text style = .ok (v.name.toList ++ [' ', '=', ' '] ++ text) := by
    rw [Value.text, htext]
    rfl
  refine ⟨_, hrun, ?_⟩
  -- The lexemes of the text are those of the two sides and the equals sign.
  have hproper : ∀ a ∈ Lexeme.name v.name :: .equals ::
      (sumTree literal (v.shownTerms style)).lexemes, a.IsProper :=
    List.forall_mem_cons.mpr ⟨hname, List.forall_mem_cons.mpr ⟨trivial, isProper_of_mem_sumTree h⟩⟩
  have hparts : (Lexeme.name v.name :: .equals ::
      (sumTree literal (v.shownTerms style)).lexemes).IsChain Lexeme.Parts := by
    refine List.isChain_cons_cons.mpr ⟨?_, List.isChain_cons.mpr ⟨?_, isChain_sumTree h⟩⟩
    · rintro c ⟨rfl⟩
      rfl
    · exact fun b _ c _ => rfl
  have hword : IsWord v.name.toList := isWord_of_name hname
  have hfilter : (String.ofList (v.name.toList ++ [' ', '=', ' '] ++ text)).toList.filter
      (fun c => !isBlank c) = (Lexeme.name v.name :: .equals ::
        (sumTree literal (v.shownTerms style)).lexemes).flatMap Lexeme.chars := by
    rw [String.toList_ofList, List.filter_append, List.filter_append, hword.filter_isBlank, hchars,
      List.append_assoc]
    rfl
  obtain ⟨htokens, hending⟩ := scan_of_chars hproper hparts hfilter
  rw [Sides.ofText_eq_ok_iff_isWritten]
  refine ⟨hending, .term (.factors (.atom (.unknown v.name))), _, htokens, ⟨rfl, isLinear_sumTree⟩,
    ⟨?_, hasNumbers_sumTree h⟩, rfl⟩
  intro text hnumber
  simp [Expression.lexemes, Term.lexemes, Factors.lexemes, Atom.lexeme] at hnumber

theorem Value.exists_text_fraction {v : Value} (hname : (Lexeme.name v.name).IsProper)
    (hfree : ∀ name ∈ v.freeUnknowns, (Lexeme.name name).IsProper) :
    ∃ text sides, v.text .fraction = .ok text ∧ Sides.ofText (String.ofList text) = .ok sides ∧
      v.IsSaidBy sides := by
  have hmem : ∀ name, .unknown name ∈ (v.shownTerms .fraction).map Prod.fst →
      name ∈ v.freeUnknowns := by
    intro name hname
    obtain ⟨e, he, hfst⟩ := List.mem_map.mp hname
    exact mem_freeUnknowns.mpr (hfst ▸ List.mem_map_of_mem (List.mem_of_mem_filter he))
  have hwritable : ∀ e ∈ v.shownTerms .fraction,
      IsWritable .fraction Number.fractionLiteral e := by
    intro e he
    refine ⟨Number.Style.fraction_writes e.2, fun name hsymbol => hfree name (hmem name ?_)⟩
    exact hsymbol ▸ List.mem_map_of_mem he
  obtain ⟨text, htext, hsides⟩ := Value.exists_text hname hwritable
  refine ⟨text, _, htext, hsides, ?_, ?_, ?_, ?_⟩
  · exact fun x => LinearForm.number_ofUnknown x
  · intro x
    have hnumber := number_sumTree x fun e he => (hwritable e he).writes.value_eq
    rw [Expression.number_value x isLinear_sumTree, hnumber]
    exact Table.total_filter_ne_zero (Symbol.number x) v.terms
  · exact Equation.mem_unknowns_ofSides.mpr (Or.inl (LinearForm.mem_unknowns_ofUnknown.mpr rfl))
  · intro name hname
    rcases Equation.mem_unknowns_ofSides.mp hname with hname | hname
    · exact Or.inl (LinearForm.mem_unknowns_ofUnknown.mp hname)
    · rw [Expression.mem_unknowns_value_iff, name_mem_lexemes_sumTree] at hname
      exact Or.inr (hmem name hname)

/-- **A solution that is written is solved to itself.** -/
theorem Input.solve_text_of_values {lines : List String} {settings : Settings}
    {solution : Solution} (h : (Input.text lines).solve settings = .ok solution) :
    ∃ texts, solution.values.mapM (Value.text .fraction) = .ok texts ∧
      ∃ again, (Input.text (texts.map String.ofList)).solve {} = .ok again ∧
        again.values = solution.values ∧ again.isApproximate = false := by
  obtain ⟨s, hsolve, hproper⟩ := exists_system_of_solve_text h
  obtain ⟨isApproximate, r, values, hsolved⟩ := exists_solved s.matrix
  obtain rfl := hsolved.eq_of_solve hsolve
  have hname : ∀ d, (Lexeme.name (values d).name).IsProper := by
    intro d
    rw [hsolved.substituted.name d]
    exact hproper _ (List.get_mem _ _)
  have hfree : ∀ d, ∀ name ∈ (values d).freeUnknowns, (Lexeme.name name).IsProper :=
    fun d name hmem => hproper name (hsolved.mem_names d name hmem)
  choose text sides htext hread hsays using
    fun d => Value.exists_text_fraction (hname d) (hfree d)
  have htexts : (List.ofFn values).mapM (Value.text .fraction) = .ok (List.ofFn text) :=
    mapM_eq_ok_iff.mpr (forall₂_ofFn htext)
  have hlines : List.Forall₂ (fun line sides => Sides.ofText line = .ok sides)
      ((List.ofFn text).map String.ofList) (List.ofFn sides) :=
    List.forall₂_map_left_iff.mpr (forall₂_ofFn hread)
  have hagain := hsolved.solveSides_eq hsays
  rw [← solve_text_of_sides hlines] at hagain
  exact ⟨List.ofFn text, htexts, _, hagain, rfl, rfl⟩

/-- The planes of `LinearSystem.threePlanes`, as text. -/
def threePlanesText : List String :=
  ["2x + 2y - 2z = 5", "7x + 7y + z = 10", "5x + 5y - z = 5"]

theorem Input.solve_text_of_values_threePlanes :
    (Input.text threePlanesText).solve {} = .ok LinearSystem.closestLine ∧
      ∃ texts, LinearSystem.closestLine.values.mapM (Value.text .fraction) = .ok texts ∧
        ∃ again, (Input.text (texts.map String.ofList)).solve {} = .ok again ∧
          again.values = LinearSystem.closestLine.values ∧ again.isApproximate = false := by
  have hsolve : (Input.text threePlanesText).solve {} = .ok LinearSystem.closestLine := by
    decide +kernel
  exact ⟨hsolve, Input.solve_text_of_values hsolve⟩

end LinearSystems
