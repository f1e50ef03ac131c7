import LinearSystems.Checked.Solver
import LinearSystems.Proofs.CheckedSides
import LinearSystems.Proofs.CheckedSubstitution
import LinearSystems.Proofs.Outcome
import LinearSystems.Proofs.TableSums
import LinearSystems.Proofs.WrittenExpressions

/-!
# Solving never comes to a fault, and writing in one case only

Solving by checked steps gives what solving gives, for all inputs, so its only failures are errors
that are reported. Writing by checked steps gives what writing gives, and it fails just where a
number has to be written in a style that has no room for its places.

* `letter_eq`, `equations_eq`: the equations of an input.
* `solveGrid_gridOf`, `solve_eq`: a system, from its matrix on and from its input on.
* `solutionText_eq`: a solution as text.
* `exists_text_iff`: the solutions that are written in a style.
* `solve_and_write_fault_iff`: the one fault that can come out of all this.
-/

namespace LinearSystems.Checked

open Number

/-! ## Equations -/

theorem letter_eq (i : Fin Equation.letters.length) : letter i = .ok Equation.letters[i] := by
  revert i
  decide +kernel

/-- The letters are enough for the rows that are not too long. -/
theorem mapM_letter (coefficients : List Rat) (k : Nat)
    (h : k + coefficients.length ≤ positionalLimit) :
    (coefficients.zipIdx k).mapM (fun e => (letter e.2).map fun name => (name, e.1)) =
      .ok ((Equation.letters.drop k).zip coefficients) := by
  induction coefficients generalizing k with
  | nil => simp [pure, Except.pure]
  | cons q coefficients ih =>
      rw [List.length_cons] at h
      have hk : k < Equation.letters.length := by
        have hletters : Equation.letters.length = positionalLimit := rfl
        omega
      rw [List.zipIdx_cons, List.mapM_cons, letter_eq ⟨k, hk⟩, ih (k + 1) (by omega),
        List.drop_eq_getElem_cons hk, List.zip_cons_cons]
      rfl

theorem equationOfRow_eq (row : List Rat) :
    equationOfRow row = (Equation.ofRow row).mapError Failure.error := by
  rw [equationOfRow, Equation.ofRow]
  cases row.getLast? with
  | none => rfl
  | some value =>
      simp only
      split
      · rfl
      · next hroom =>
        rw [mapM_letter row.dropLast 0 (by omega), List.drop_zero]
        rfl

theorem equationOfText_eq (place : Nat) (text : String) :
    equationOfText place text = (Equation.ofText place text).mapError Failure.error := by
  rw [equationOfText, Equation.ofText, sidesOfText_eq]
  cases Sides.ofText text <;> rfl

theorem mapM_mapError {α β ε ε' : Type} (f : α → Except ε β) (g : ε → ε') (l : List α) :
    l.mapM (fun a => (f a).mapError g) = (l.mapM f).mapError g := by
  induction l with
  | nil => rfl
  | cons a l ih =>
      rw [List.mapM_cons, List.mapM_cons, ih]
      cases f a with
      | error e => rfl
      | ok b => cases l.mapM f <;> rfl

theorem equations_eq (input : Input) :
    equations input = input.equations.mapError Failure.error := by
  cases input with
  | text lines =>
      rw [equations, Input.equations, ← mapM_mapError]
      exact mapM_congr_left fun e _ => equationOfText_eq e.2 e.1
  | tables list => rfl
  | rows list =>
      rw [equations, Input.equations, show equationOfRow = _ from funext equationOfRow_eq,
        mapM_mapError]
      cases Input.checkRows list <;> rfl

/-! ## Solving -/

theorem gridOfEquations_eq (names : List String) (equations : List Equation) :
    gridOfEquations names equations =
      .ok (gridOf (equations.map (LinearSystem.rowOf names))) := by
  have hlength : equations.length = (equations.map (LinearSystem.rowOf names)).length :=
    (List.length_map _).symm
  rw [gridOfEquations, hlength]
  refine fill_eq_gridOf _ _ ?_
  intro i row hrow j q hq
  obtain ⟨e, he, rfl⟩ : ∃ e, equations[i]? = some e ∧ LinearSystem.rowOf names e = row := by
    rwa [List.getElem?_map, Option.map_eq_some_iff] at hrow
  simp only [elementAt_eq_ok_iff.mpr he, bind, Except.bind]
  rcases Row.getElem?_entries_cases hq with ⟨c, rfl, rfl⟩ | ⟨rfl, rfl⟩
  · simp only [if_neg (ne_of_lt c.isLt), elementAt_val]
    simp [LinearSystem.rowOf, Row.coefficient, pure, Except.pure]
  · rw [if_pos rfl]
    rfl

section Matrix

variable {names : List String} (m : AugmentedMatrix names.length) (settings : Settings)

theorem leastSquares_gridOf : leastSquares (gridOf m.rows) = m.leastSquares.map reducedOf := by
  rw [leastSquares, AugmentedMatrix.leastSquares, normalEquations_gridOf]
  simp only [bind, Except.bind, reduce_gridOf]
  cases m.normalEquations.reduce with
  | error fault => rfl
  | ok r =>
      simp only [Except.map, Except.mapError, classify_reducedOf, shapeOf_eq_inconsistent_iff]
      split <;> rfl

theorem reduceFor_gridOf : reduceFor settings (gridOf m.rows) =
    (settings.reduce m).map fun (r, isApproximate) => (reducedOf r, isApproximate) := by
  rw [reduceFor, Settings.reduce, reduce_gridOf, leastSquares_gridOf]
  simp only [bind, Except.bind]
  cases m.reduce with
  | error fault => rfl
  | ok r =>
      simp only [Except.map, Except.mapError, classify_reducedOf, shapeOf_eq_inconsistent_iff]
      split
      · split
        · cases m.leastSquares <;> rfl
        · rfl
      · rfl

theorem mapM_elementAt (columns : List (Fin names.length)) :
    (columns.map Fin.val).mapM (elementAt names) = .ok (columns.map names.get) := by
  rw [mapM_eq_ok_iff, List.forall₂_map_left_iff, List.forall₂_map_right_iff, List.forall₂_same]
  exact fun c _ => elementAt_val c

theorem solveGrid_gridOf :
    solveGrid settings names (gridOf m.rows) = solveMatrix settings names m := by
  rw [solveGrid, solveMatrix, reduceFor_gridOf]
  cases settings.reduce m with
  | error failure => rfl
  | ok result =>
      obtain ⟨r, isApproximate⟩ := result
      simp only [Except.map, bind, Except.bind, classify_reducedOf, backSubstitute_reducedOf,
        Except.mapError]
      cases r.classify with
      | unique => rfl
      | inconsistent => rfl
      | underdetermined free =>
          simp only [shapeOf, mapM_elementAt]
          cases settings.policy <;> rfl

end Matrix

/-- Solving by checked steps is solving. -/
theorem solve_eq (settings : Settings) (input : Input) :
    solve settings input = input.solve settings := by
  rw [solve, Input.solve, LinearSystem.ofInput, equations_eq]
  cases input.equations with
  | error error => rfl
  | ok equations =>
      simp only [Except.mapError, bind, Except.bind]
      cases LinearSystem.ofEquations equations with
      | error error => rfl
      | ok system =>
          simp only [gridOfEquations_eq]
          exact solveGrid_gridOf system.matrix settings

/-! ## Writing -/

theorem inStyle_eq (v : Value) (style : Style) : inStyle v style = .ok (v.inStyle style) := by
  cases style with
  | fraction => rfl
  | decimal places =>
      have hterms : v.terms.entries.mapM (fun (e : Symbol × Rat) => do
          return (e.1, ← rounded places e.2)) =
            (Except.ok (v.terms.map (roundTo places)).entries : Except Fault _) := by
        simp only [rounded_eq]
        exact List.mapM_pure
      have htable : Table.ofList (v.terms.map (roundTo places)).entries =
          v.terms.map (roundTo places) :=
        Table.ext_entries (Table.entries_ofList (v.terms.map (roundTo places)).sorted)
      rw [inStyle, hterms]
      exact congrArg (fun terms => Except.ok (Value.ofTerms v.name terms)) htable

theorem termText_eq (style : Style) (e : Symbol × Rat) :
    termText style e = LinearSystems.termText style e := by
  obtain ⟨_ | name, q⟩ := e
  · exact write_eq style q
  · rw [termText, LinearSystems.termText, write_eq]

theorem expression_eq (style : Style) (v : Value) : expression style v = v.expression style := by
  have hterm : termText style = LinearSystems.termText style := funext (termText_eq style)
  rw [expression, inStyle_eq, Value.expression, hterm]
  simp only [bind, Except.bind]
  split
  · rfl
  · cases ((v.inStyle style).terms.entries.filter fun e => decide (e.2 ≠ 0)).mapM
      (LinearSystems.termText style) <;> rfl

/-- Writing by checked steps is writing. -/
theorem solutionText_eq (style : Style) (s : Solution) : solutionText style s = s.text style := by
  have htext : ∀ v : Value, (do
      return v.name.toList ++ [' ', '=', ' '] ++ (← expression style v)) = v.text style := by
    intro v
    rw [expression_eq, Value.text]
    cases v.expression style <;> rfl
  rw [solutionText, Solution.text]
  simp only [htext]
  cases s.shown.mapM (Value.text style) <;> rfl

theorem solutionMarkup_eq (style : Style) (s : Solution) :
    solutionMarkup style s = s.markup style := by
  rw [solutionMarkup, solutionText_eq, Solution.markup]
  cases s.text style <;> rfl

/-! ## Faults -/

/-- What is reported of an input is an error, and never a fault. -/
theorem exists_solution_or_error (settings : Settings) (input : Input) :
    (∃ solution, input.solve settings = .ok solution) ∨
      ∃ error, input.solve settings = .error (.error error) := by
  rw [Input.solve]
  cases LinearSystem.ofInput input with
  | error error => exact Or.inr ⟨error, rfl⟩
  | ok system =>
      obtain ⟨isApproximate, r, values, hsolved⟩ := exists_solved system.matrix
      exact (hsolved.solve_eq_ok_or_unsolvable settings).imp_right fun ⟨cause, h⟩ => ⟨_, h⟩

/-- A solution is written just if there is room for numbers, or no number to be written. -/
theorem exists_text_iff (style : Style) (solution : Solution) :
    (∃ text markup, solution.text style = .ok text ∧ solution.markup style = .ok markup) ↔
      style.hasRoom = true ∨
        ∀ v ∈ solution.shown, ∀ e ∈ v.shownTerms style, needsNumber e = false := by
  have hfails : (style.hasRoom = true ∨
        ∀ v ∈ solution.shown, ∀ e ∈ v.shownTerms style, needsNumber e = false) ↔
      ¬ solution.text style = .error .tooManyPlaces := by
    rw [Solution.text_eq_error_iff]
    cases style.hasRoom <;> simp
  rw [hfails, Solution.markup]
  cases htext : solution.text style with
  | ok text => exact iff_of_true ⟨text, _, rfl, rfl⟩ fun h => by cases h
  | error fault =>
      obtain ⟨-, -, rfl⟩ := Solution.text_eq_error_iff.mp htext
      exact iff_of_false (fun ⟨_, _, h, _⟩ => by cases h) (not_not_intro rfl)

/-- **Solving never comes to a fault, and writing does in one case only.** By checked steps, an
input or a block of text gives a solution or an error that is reported. A solution gives a text and
markup just if the style has room for numbers or no number is written, and otherwise the fault that
there are too many places. All of this is what solving and writing give. -/
theorem solve_and_write_fault_iff (settings : Settings) (input : Input) (block : String)
    (style : Style) (solution : Solution) :
    (solve settings input = input.solve settings ∧
      ((∃ solution, solve settings input = .ok solution) ∨
        ∃ error, solve settings input = .error (.error error))) ∧
    (solveBlock settings block = LinearSystems.solveBlock settings block ∧
      ((∃ solution, solveBlock settings block = .ok solution) ∨
        ∃ error, solveBlock settings block = .error (.error error))) ∧
    (solutionText style solution = solution.text style ∧
      solutionMarkup style solution = solution.markup style) ∧
    ((∃ text markup, solutionText style solution = .ok text ∧
        solutionMarkup style solution = .ok markup) ↔
      style.hasRoom = true ∨
        ∀ v ∈ solution.shown, ∀ e ∈ v.shownTerms style, needsNumber e = false) ∧
    (solutionText style solution = .error .tooManyPlaces ∧
        solutionMarkup style solution = .error .tooManyPlaces ↔
      style.hasRoom = false ∧
        ∃ v ∈ solution.shown, ∃ e ∈ v.shownTerms style, needsNumber e = true) := by
  have hsolve : ∀ input, solve settings input = input.solve settings ∧
      ((∃ solution, solve settings input = .ok solution) ∨
        ∃ error, solve settings input = .error (.error error)) := by
    intro input
    rw [solve_eq]
    exact ⟨rfl, exists_solution_or_error settings input⟩
  have hmarkup : solution.markup style = .error .tooManyPlaces ↔
      solution.text style = .error .tooManyPlaces := map_eq_error_iff
  rw [solutionText_eq, solutionMarkup_eq]
  refine ⟨hsolve input, hsolve (.ofBlock block), ⟨rfl, rfl⟩, exists_text_iff style solution, ?_⟩
  rw [hmarkup, and_self, Solution.text_eq_error_iff, eq_self_iff_true, and_true, and_comm]

example : (do
    let solution ← solve {} (.text ["x + 2y = 1", "x = 1 - 2y"])
    (solutionText (.decimal 2) solution).mapError Failure.fault) =
      .ok "x = 1 - 2y".toList := by
  decide +kernel

example : (do
    let solution ← solve {} (.text ["x = 1/2"])
    (solutionText (.decimal 65535) solution).mapError Failure.fault) =
      .error (.fault .tooManyPlaces) := by
  decide +kernel

end LinearSystems.Checked
