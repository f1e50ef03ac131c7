import LinearSystems.Proofs.DecimalTexts
import LinearSystems.Proofs.EquationGrammar

/-!
# Expressions are read as they are written

The expression of a value is a text of the grammar. Reading it gives a form with the constant
and the coefficients that the style shows: those of the value itself for fractions, and those
of the rounded value for decimals. An unknown is in the form if its coefficient is not zero.

Decimals with more places than there is room for are not written. A value of which only names
are written is read back even then, and no other value is written at all.

* `Value.HasForm`: a form says what a value is.
* `Value.isWritable`: where there is room, all terms can be written.
* `Value.exists_form`: what is written is read back.
* `Value.expression_eq_error_iff`, `Solution.text_eq_error_iff`: what cannot be written.
* `Value.expression_follows_value`: the expressions of a value, in all styles.
-/

namespace LinearSystems

open Number Text Grammar

/-- The form has the constant of the value, and those of its coefficients that are not zero. -/
structure Value.HasForm (v : Value) (form : LinearForm) : Prop where
  constant_eq : form.constant = v.constant
  find?_eq : ∀ name, form.coefficients.find? name =
    if v.coefficient name = 0 then none else some (v.coefficient name)

/-! ## Room for numbers -/

/-- Whether numbers can be written in the style. -/
def Number.Style.hasRoom : Style → Bool
  | fraction => true
  | decimal places => decide (places ≤ placesLimit)

/-- Whether a number is written for a term: not so for an unknown or its opposite. -/
def needsNumber : Symbol × Rat → Bool
  | (.constant, _) => true
  | (.unknown _, q) => decide (q ≠ 1 ∧ q ≠ -1)

section Terms

variable {style : Style} {e : Symbol × Rat} {q : Rat} {fault : Fault}

/-- A number cannot be written just where there is no room for it. -/
theorem Number.Style.write_eq_error_iff :
    style.write q = .error fault ↔ style.hasRoom = false ∧ fault = .tooManyPlaces := by
  cases style with
  | fraction => exact iff_of_false (fun h => by cases h) fun h => Bool.noConfusion h.1
  | decimal places =>
      rw [write, hasRoom, decide_eq_false_iff_not]
      by_cases hroom : places ≤ placesLimit
      · rw [decimalText_of_le hroom]
        exact iff_of_false (fun h => by cases h) fun h => h.1 hroom
      · rw [decimalText, if_neg hroom, Except.error.injEq, eq_comm, and_iff_right hroom]

theorem termText_of_not_needsNumber (h : needsNumber e = false) :
    termText style e = termText .fraction e := by
  obtain ⟨_ | name, q⟩ := e
  · cases h
  · have hunit : ¬ (q ≠ 1 ∧ q ≠ -1) := of_decide_eq_false h
    rw [termText, termText]
    by_cases hone : q = 1
    · rw [if_pos hone, if_pos hone]
    · have hminus : q = -1 := by_contra fun hminus => hunit ⟨hone, hminus⟩
      rw [if_neg hone, if_neg hone, if_pos hminus, if_pos hminus]

/-- A term cannot be written just if it needs a number and there is no room for it. -/
theorem termText_eq_error_iff : termText style e = .error fault ↔
    needsNumber e = true ∧ style.hasRoom = false ∧ fault = .tooManyPlaces := by
  obtain ⟨_ | name, q⟩ := e
  · exact Style.write_eq_error_iff.trans (and_iff_right rfl).symm
  · rw [termText, needsNumber, decide_eq_true_eq]
    split
    · next hone => exact iff_of_false (fun h => by cases h) fun h => h.1.1 hone
    · next hone =>
      split
      · next hminus => exact iff_of_false (fun h => by cases h) fun h => h.1.2 hminus
      · next hminus =>
        have hneeds : q ≠ 1 ∧ q ≠ -1 := ⟨hone, hminus⟩
        rw [map_eq_error_iff, Style.write_eq_error_iff, and_iff_right hneeds]

end Terms

/-! ## Writable values -/

/-- How the style writes a number without its sign. -/
def Number.Style.literal : Style → Rat → List Char
  | fraction => fractionLiteral
  | decimal places => decimalLiteral places

namespace Value

variable {v : Value} {style : Style} {literal : Rat → List Char}

theorem expression_eq (style : Style) (v : Value) : v.expression style =
    if (v.shownTerms style).isEmpty then .ok ['0']
    else ((v.shownTerms style).mapM (termText style)).map fun texts =>
      dropPlus ([' ', '+', ' '].intercalate texts) := rfl

theorem mem_shownTerms {e : Symbol × Rat} : e ∈ v.shownTerms style ↔
    e ∈ (v.inStyle style).terms.entries ∧ e.2 ≠ 0 := by
  rw [shownTerms, List.mem_filter, decide_eq_true_eq]

theorem unknown_mem_shownTerms {name : String} :
    .unknown name ∈ (v.shownTerms style).map Prod.fst ↔ (v.inStyle style).coefficient name ≠ 0 := by
  have hcoefficient : ∀ q, (Symbol.unknown name, q) ∈ (v.inStyle style).terms.entries →
      (v.inStyle style).coefficient name = q := by
    intro q hq
    rw [coefficient, Table.coefficient, Table.find?_eq_some_iff.mpr hq, Option.getD_some]
  constructor
  · intro h
    obtain ⟨⟨_, q⟩, he, rfl⟩ := List.mem_map.mp h
    obtain ⟨hmem, hne⟩ := mem_shownTerms.mp he
    rwa [hcoefficient q hmem]
  · intro hne
    cases hfind : (v.inStyle style).terms.find? (.unknown name) with
    | none =>
        rw [coefficient, Table.coefficient, hfind] at hne
        exact absurd rfl hne
    | some q =>
        have hmem := Table.find?_eq_some_iff.mp hfind
        rw [hcoefficient q hmem] at hne
        exact List.mem_map.mpr ⟨_, mem_shownTerms.mpr ⟨hmem, hne⟩, rfl⟩

theorem mem_freeUnknowns_inStyle {name : String} (h : name ∈ (v.inStyle style).freeUnknowns) :
    name ∈ v.freeUnknowns := by
  cases style with
  | fraction => exact h
  | decimal places => exact mem_freeUnknowns_rounded h

/-- A term other than zero is a whole number of units of the decimal place. -/
theorem exists_eq_div {places : Nat} {e : Symbol × Rat} (he : e ∈ v.shownTerms (.decimal places)) :
    ∃ k : Int, e.2 = k / powerOfTen places := by
  obtain ⟨hmem, hne⟩ := mem_shownTerms.mp he
  rcases mem_entries_prune hmem with hmem | hzero
  · obtain ⟨e', -, rfl⟩ := List.mem_map.mp hmem
    exact ⟨_, rfl⟩
  · exact absurd hzero hne

theorem isProper_of_mem_shownTerms
    (hproper : ∀ name ∈ v.freeUnknowns, (Lexeme.name name).IsProper) :
    ∀ e ∈ v.shownTerms style, ∀ name, e.1 = .unknown name → (Lexeme.name name).IsProper := by
  intro e he name hname
  have hfree : name ∈ (v.inStyle style).freeUnknowns := by
    rw [mem_freeUnknowns, ← hname]
    exact List.mem_map_of_mem (mem_shownTerms.mp he).1
  exact hproper name (mem_freeUnknowns_inStyle hfree)

theorem isWritable (hroom : style.hasRoom = true)
    (hproper : ∀ name ∈ v.freeUnknowns, (Lexeme.name name).IsProper) :
    ∀ e ∈ v.shownTerms style, IsWritable style style.literal e := by
  intro e he
  refine ⟨?_, isProper_of_mem_shownTerms hproper e he⟩
  cases style with
  | fraction => exact Style.fraction_writes e.2
  | decimal places =>
      obtain ⟨k, hk⟩ := exists_eq_div he
      rw [hk]
      exact Style.decimal_writes (of_decide_eq_true hroom) k

/-! ## Reading back -/

/-- The tree of the terms has the form of the value. -/
theorem hasForm_sumTree (h : ∀ e ∈ v.shownTerms style, IsWritable style literal e) :
    (v.inStyle style).HasForm (sumTree literal (v.shownTerms style)).value := by
  have hnumber : ∀ x : String → Rat, (sumTree literal (v.shownTerms style)).value.number x =
      (v.inStyle style).number x := by
    intro x
    rw [Expression.number_value x isLinear_sumTree,
      number_sumTree x fun e he => (h e he).writes.value_eq]
    exact Table.total_filter_ne_zero (Symbol.number x) (v.inStyle style).terms
  have hconstant : (sumTree literal (v.shownTerms style)).value.constant =
      (v.inStyle style).constant := by
    rw [← LinearForm.number_zero, hnumber, number_zero]
  have hcoefficient : ∀ name, (sumTree literal (v.shownTerms style)).value.coefficient name =
      (v.inStyle style).coefficient name := by
    intro name
    have hsingle := hnumber fun a => if a = name then 1 else 0
    rw [LinearForm.number_single, number_single, hconstant] at hsingle
    exact add_right_cancel hsingle
  refine ⟨hconstant, fun name => ?_⟩
  have hmem := Expression.mem_unknowns_value_iff (sumTree literal (v.shownTerms style)) name
  rw [name_mem_lexemes_sumTree, unknown_mem_shownTerms, LinearForm.unknowns,
    Table.mem_keys_iff] at hmem
  by_cases hzero : (v.inStyle style).coefficient name = 0
  · rw [if_pos hzero]
    by_contra hfind
    exact hmem.mp hfind hzero
  · obtain ⟨q, hq⟩ := Option.ne_none_iff_exists'.mp (hmem.mpr hzero)
    have hvalue := hcoefficient name
    rw [LinearForm.coefficient, Table.coefficient, hq, Option.getD_some] at hvalue
    rw [if_neg hzero, hq, hvalue]

theorem exists_form (h : ∀ e ∈ v.shownTerms style, IsWritable style literal e) :
    ∃ text form, v.expression style = .ok text ∧ Side.ofText (String.ofList text) = .ok form ∧
      (v.inStyle style).HasForm form := by
  obtain ⟨text, htext, hchars⟩ := exists_expression h
  rw [← String.toList_ofList (l := text)] at hchars
  obtain ⟨htokens, hending⟩ :=
    scan_of_chars (isProper_of_mem_sumTree h) (isChain_sumTree h) hchars
  refine ⟨text, _, htext, Side.ofText_eq_ok_iff.mpr ⟨?_, Side.reads_iff.mpr ?_⟩, hasForm_sumTree h⟩
  · exact Ending.defect?_eq_none_iff.mpr hending
  · exact ⟨_, htokens, isLinear_sumTree, hasNumbers_sumTree h, rfl⟩

/-! ## Styles without room -/

/-- Names are written in the same way in all styles. -/
theorem expression_of_names (h : ∀ e ∈ v.shownTerms style, needsNumber e = false) :
    v.expression style = (v.inStyle style).expression .fraction := by
  have hshown : (v.inStyle style).shownTerms .fraction = v.shownTerms style := rfl
  have htexts : (v.shownTerms style).mapM (termText style) =
      (v.shownTerms style).mapM (termText .fraction) :=
    mapM_congr_left fun e he => termText_of_not_needsNumber (h e he)
  rw [expression_eq, expression_eq, hshown, htexts]

/-- A value cannot be written just if a number is written and there is no room for it. -/
theorem expression_eq_error_iff {fault : Fault} : v.expression style = .error fault ↔
    (∃ e ∈ v.shownTerms style, needsNumber e = true) ∧
      style.hasRoom = false ∧ fault = .tooManyPlaces := by
  rw [expression_eq]
  split
  · next hempty =>
    refine iff_of_false (fun h => by cases h) fun h => ?_
    obtain ⟨⟨e, he, -⟩, -⟩ := h
    rw [List.isEmpty_iff.mp hempty] at he
    cases he
  · exact map_eq_error_iff.trans (mapM_eq_error_iff fun _ _ _ => termText_eq_error_iff)

theorem text_eq_error_iff {fault : Fault} : v.text style = .error fault ↔
    (∃ e ∈ v.shownTerms style, needsNumber e = true) ∧
      style.hasRoom = false ∧ fault = .tooManyPlaces :=
  map_eq_error_iff.trans expression_eq_error_iff

/-- **Expressions are read as they are written.** If the free unknowns of a value have names
that can be read, then its expression in any style with room for numbers is read as a form
that says what the style shows: the value, or the rounded value for decimals. In a style
without room this holds as long as no number is written, and otherwise there is no expression. -/
theorem expression_follows_value (v : Value) (style : Style)
    (hproper : ∀ name ∈ v.freeUnknowns, (Lexeme.name name).IsProper) :
    (style.hasRoom = true ∨ (∀ e ∈ v.shownTerms style, needsNumber e = false) →
      ∃ text form, v.expression style = .ok text ∧ Side.ofText (String.ofList text) = .ok form ∧
        (v.inStyle style).HasForm form) ∧
    (style.hasRoom = false → (∃ e ∈ v.shownTerms style, needsNumber e = true) →
      v.expression style = .error .tooManyPlaces) := by
  constructor
  · rintro (hroom | hnames)
    · exact exists_form (isWritable hroom hproper)
    · rw [expression_of_names hnames]
      have hwritable : ∀ e ∈ (v.inStyle style).shownTerms .fraction,
          IsWritable .fraction (Style.literal .fraction) e :=
        isWritable rfl fun name hname => hproper name (mem_freeUnknowns_inStyle hname)
      exact exists_form hwritable
  · exact fun hroom h => expression_eq_error_iff.mpr ⟨h, hroom, rfl⟩

/-- The value `1/3 - 1/8z`. -/
def thirdLessEighth : Value := resolved "x" (1 / 3) + (free "z").scaled (-1 / 8)

theorem expression_follows_value_thirdLessEighth :
    (∀ name ∈ thirdLessEighth.freeUnknowns, (Lexeme.name name).IsProper) ∧
      (∃ text form, thirdLessEighth.expression (.decimal 2) = .ok text ∧
        Side.ofText (String.ofList text) = .ok form ∧ (thirdLessEighth.rounded 2).HasForm form) ∧
      thirdLessEighth.expression (.decimal 65535) = .error .tooManyPlaces := by
  have hfree : thirdLessEighth.freeUnknowns = ["z"] := by decide +kernel
  have hproper : ∀ name ∈ thirdLessEighth.freeUnknowns, (Lexeme.name name).IsProper := by
    intro name hname
    rw [hfree, List.mem_singleton] at hname
    subst hname
    exact ⟨'z', [], by decide, by decide, by simp⟩
  have hlong : ∃ e ∈ thirdLessEighth.shownTerms (.decimal 65535), needsNumber e = true := by
    decide +kernel
  exact ⟨hproper, (expression_follows_value _ (.decimal 2) hproper).1 (Or.inl (by decide)),
    (expression_follows_value _ (.decimal 65535) hproper).2 (by decide) hlong⟩

end Value

/-- A solution cannot be written just if a number is written and there is no room for it. -/
theorem Solution.text_eq_error_iff {s : Solution} {style : Style} {fault : Fault} :
    s.text style = .error fault ↔
      (∃ v ∈ s.shown, ∃ e ∈ v.shownTerms style, needsNumber e = true) ∧
        style.hasRoom = false ∧ fault = .tooManyPlaces :=
  map_eq_error_iff.trans (mapM_eq_error_iff fun _ _ _ => Value.text_eq_error_iff)

end LinearSystems
