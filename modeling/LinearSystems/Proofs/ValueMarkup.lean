import LinearSystems.Proofs.MarkupPieces
import LinearSystems.Proofs.WrittenExpressions

/-!
# Markup of values

Markup is made from the text of a solution alone. It is the markup of the values all the same:
each name is found as a name, and each number as a number, since a literal does not go on with
the name that it stands before, and what stands after a term is a blank, a comma or nothing.

* `termMarkup`, `sumMarkup`, `Value.termsMarkup`: the markup of a value, term by term.
* `MarksUp`: the markup of a text, whatever is written after it.
* `marksUp_sumText`: the text of a sum has the markup of its terms.
* `ofText_intercalate`: a list of texts is marked up text by text.
* `Solution.markup_follows_terms`: the markup of a solution.
-/

namespace LinearSystems

open Number Text

/-! ## The markup of terms -/

namespace Markup

/-- The markup of a number without its sign. -/
def numberMarkup : Style → Rat → String
  | .fraction, q =>
    if q.den = 1 then String.ofList (digits q.num.natAbs)
    else fraction (digits q.num.natAbs) (digits q.den)
  | .decimal places, q => String.ofList (decimalLiteral places q)

def nameMarkup (name : String) : String := "<var>" ++ name ++ "</var>"

/-- The markup of a term without its sign. -/
def termMarkup (style : Style) : Symbol × Rat → String
  | (.constant, q) => numberMarkup style q
  | (.unknown name, q) =>
    (if q = 1 ∨ q = -1 then "" else numberMarkup style q) ++ nameMarkup name

def signMarkup (isNegative : Bool) : String := if isNegative then "&minus;" else ""

def betweenMarkup (isNegative : Bool) : String := if isNegative then " &minus; " else " + "

/-- The markup of a sum of terms, zero if there are none. -/
def sumMarkup (style : Style) : List (Symbol × Rat) → String
  | [] => "0"
  | e :: l => signMarkup (e.2 < 0) ++ termMarkup style e ++
      String.join (l.map fun e => betweenMarkup (e.2 < 0) ++ termMarkup style e)

end Markup

/-- The markup of a value: its name, and the terms that are shown. -/
def Value.termsMarkup (style : Style) (v : Value) : String :=
  Markup.nameMarkup v.name ++ " = " ++ Markup.sumMarkup style (v.shownTerms style)

/-! ## Texts before other texts -/

namespace Markup

/-- What may stand after a term or a value: a blank, a comma, or nothing. -/
def Delimits (rest : List Char) : Prop := ∀ c ∈ rest.head?, c = ' ' ∨ c = ','

theorem delimits_cons {c : Char} (h : c = ' ' ∨ c = ',') (rest : List Char) :
    Delimits (c :: rest) := fun _ hd => Option.some.inj hd ▸ h

/-- The text is marked up in this way, whatever is written after it. -/
def MarksUp (text : List Char) (markup : String) : Prop :=
  ∀ rest, Delimits rest → ofText (text ++ rest) = markup ++ ofText rest

theorem MarksUp.ofText_eq {text : List Char} {markup : String} (h : MarksUp text markup) :
    ofText text = markup := by
  have hend := h [] fun c hc => absurd hc (Option.not_mem_none c)
  rwa [List.append_nil, ofText_nil, String.append_empty] at hend

/-- A list of texts is marked up text by text. -/
theorem ofText_intercalate {texts : List (List Char)} {markups : List String}
    (h : List.Forall₂ MarksUp texts markups) :
    ofText ([',', ' '].intercalate texts) = ", ".intercalate markups := by
  induction h with
  | nil => exact ofText_nil
  | cons hfirst hrest ih =>
      cases hrest with
      | nil => rw [List.intercalate_singleton, String.intercalate_singleton, hfirst.ofText_eq]
      | cons hnext hrest =>
          have hcomma : ∀ l, Delimits ([',', ' '] ++ l) := fun l => delimits_cons (Or.inr rfl) _
          rw [List.intercalate_cons_cons, String.intercalate_cons_cons, ← ih, List.append_assoc,
            hfirst _ (hcomma _), ofText_marks (by simp), String.append_assoc]
          rfl

/-! ## Literals -/

section Literal

variable {style : Style} {q : Rat} {rest : List Char}

theorem isRun_digits (n : Nat) : Lexeme.IsRun Char.isDigit continuesNumber (digits n) := by
  obtain ⟨c, rest, hdigits, hdigit⟩ := exists_digits_eq_cons n
  rw [List.forall_mem_cons] at hdigit
  exact ⟨c, rest, hdigits, hdigit.1, fun d hd => continuesNumber_iff.mpr (Or.inl (hdigit.2 d hd))⟩

theorem isRun_decimalLiteral (places : Nat) (q : Rat) :
    Lexeme.IsRun Char.isDigit continuesNumber (decimalLiteral places q) := by
  obtain ⟨c, rest, htext, hc⟩ := exists_unitsText_eq_cons places (scaledToPlaces places q).natAbs
  refine ⟨c, rest, htext, hc, fun d hd => continuesNumber_iff.mpr ?_⟩
  exact mem_unitsText (htext ▸ List.mem_cons_of_mem c hd)

theorem fractionLiteral_eq (q : Rat) : fractionLiteral q =
    digits q.num.natAbs ++ if q.den = 1 then [] else '/' :: digits q.den := by
  rw [fractionLiteral, fractionText_of_nonneg (abs_nonneg q), Rat.num_abs_eq_abs_num,
    Rat.den_abs_eq_den, Int.natAbs_abs]

/-- A literal is marked up as a number, unless the text after it could go on with it. -/
theorem ofText_literal (hrest : ∀ c ∈ rest.head?, continuesNumber c = false ∧ c ≠ '/') :
    ofText (style.literal q ++ rest) = numberMarkup style q ++ ofText rest := by
  cases style with
  | decimal places => exact ofText_number (isRun_decimalLiteral places q) hrest
  | fraction =>
      rw [Style.literal, fractionLiteral_eq, numberMarkup]
      split
      · rw [List.append_nil]
        exact ofText_number (isRun_digits q.num.natAbs) hrest
      · apply ofText_fraction (isRun_digits q.num.natAbs) fun c => isDigit_of_mem_digits
        intro c hc
        exact (Bool.or_eq_false_iff.mp (hrest c hc).1).1

end Literal

/-! ## Terms -/

section Terms

variable {style : Style} {e : Symbol × Rat} {l : List (Symbol × Rat)}

theorem marksUp_literal (q : Rat) : MarksUp (style.literal q) (numberMarkup style q) := by
  intro rest hrest
  apply ofText_literal
  intro c hc
  rcases hrest c hc with rfl | rfl <;> exact ⟨rfl, by decide⟩

theorem marksUp_name {name : String} (h : (Lexeme.name name).IsProper) :
    MarksUp name.toList (nameMarkup name) := by
  intro rest hrest
  have hrun : Lexeme.IsRun Char.isAlpha Char.isAlphanum name.toList := h
  have hstops : ∀ c ∈ rest.head?, c.isAlphanum = false := by
    intro c hc
    rcases hrest c hc with rfl | rfl <;> rfl
  rw [ofText_name hrun hstops, String.ofList_toList, nameMarkup]

/-- A literal does not go on with the name of an unknown. -/
theorem stops_of_name {name : String} (h : (Lexeme.name name).IsProper) (rest : List Char) :
    ∀ c ∈ (name.toList ++ rest).head?, continuesNumber c = false ∧ c ≠ '/' := by
  have hrun : Lexeme.IsRun Char.isAlpha Char.isAlphanum name.toList := h
  obtain ⟨c, letters, hname, halpha, -⟩ := hrun
  intro d hd
  rw [hname, List.cons_append, List.head?_cons, Option.mem_some_iff] at hd
  subst hd
  refine ⟨Bool.eq_false_iff.mpr fun hnumber => ?_, ?_⟩
  · rcases continuesNumber_iff.mp hnumber with hdigit | rfl
    · exact isAlpha_ne_true_of_isDigit hdigit halpha
    · cases halpha
  · rintro rfl
    cases halpha

theorem marksUp_termWord (h : ∀ name, e.1 = .unknown name → (Lexeme.name name).IsProper) :
    MarksUp (termWord style.literal e) (termMarkup style e) := by
  obtain ⟨_ | name, q⟩ := e
  · rw [termWord_constant]
    exact marksUp_literal q
  · have hname := h name rfl
    intro rest hrest
    rw [termWord_unknown, termMarkup]
    split
    · rw [List.nil_append, String.empty_append, marksUp_name hname rest hrest]
    · rw [List.append_assoc, ofText_literal (stops_of_name hname rest),
        marksUp_name hname rest hrest, String.append_assoc]

theorem ofText_sign (isNegative : Bool) (rest : List Char) :
    ofText (sign isNegative ++ rest) = signMarkup isNegative ++ ofText rest := by
  have hmarks : ∀ c ∈ sign isNegative, c.isAlpha = false ∧ c.isDigit = false := by
    cases isNegative <;> simp [sign]
  rw [ofText_marks hmarks]
  cases isNegative <;> rfl

theorem ofText_between (isNegative : Bool) (rest : List Char) :
    ofText (between isNegative ++ rest) = betweenMarkup isNegative ++ ofText rest := by
  have hmarks : ∀ c ∈ between isNegative, c.isAlpha = false ∧ c.isDigit = false := by
    cases isNegative <;> simp [between]
  rw [ofText_marks hmarks]
  cases isNegative <;> rfl

theorem delimits_terms {rest : List Char} (hrest : Delimits rest)
    (text : Symbol × Rat → List Char) :
    Delimits ((l.flatMap fun e => between (e.2 < 0) ++ text e) ++ rest) := by
  cases l with
  | nil => exact hrest
  | cons e l => exact delimits_cons (Or.inl rfl) _

theorem marksUp_terms (h : ∀ e ∈ l, ∀ name, e.1 = .unknown name → (Lexeme.name name).IsProper) :
    MarksUp (l.flatMap fun e => between (e.2 < 0) ++ termWord style.literal e)
      (String.join (l.map fun e => betweenMarkup (e.2 < 0) ++ termMarkup style e)) := by
  intro rest hrest
  induction l with
  | nil =>
      rw [List.flatMap_nil, List.nil_append, List.map_nil, String.join_nil, String.empty_append]
  | cons e l ih =>
      rw [List.forall_mem_cons] at h
      rw [List.flatMap_cons, List.append_assoc, List.append_assoc, ofText_between,
        marksUp_termWord h.1 _ (delimits_terms hrest _), ih h.2, List.map_cons, String.join_cons,
        String.append_assoc, String.append_assoc]

/-- The text of a sum has the markup of its terms. -/
theorem marksUp_sumText
    (h : ∀ e ∈ l, ∀ name, e.1 = .unknown name → (Lexeme.name name).IsProper) :
    MarksUp (sumText style.literal l) (sumMarkup style l) := by
  intro rest hrest
  cases l with
  | nil =>
      have hzero : MarksUp (Style.literal .fraction 0) (numberMarkup .fraction 0) :=
        marksUp_literal 0
      exact hzero rest hrest
  | cons e l =>
      rw [List.forall_mem_cons] at h
      rw [sumText, List.append_assoc, List.append_assoc, ofText_sign,
        marksUp_termWord h.1 _ (delimits_terms hrest _), marksUp_terms h.2 rest hrest, sumMarkup,
        String.append_assoc, String.append_assoc]

/-- Names are marked up in the same way in all styles. -/
theorem termMarkup_of_not_needsNumber (h : needsNumber e = false) :
    termMarkup style e = termMarkup .fraction e := by
  obtain ⟨_ | name, q⟩ := e
  · cases h
  · have hunit : q = 1 ∨ q = -1 :=
      by_contra fun hnone => of_decide_eq_false h (not_or.mp hnone)
    rw [termMarkup, termMarkup, if_pos hunit, if_pos hunit]

theorem sumMarkup_of_names (h : ∀ e ∈ l, needsNumber e = false) :
    sumMarkup style l = sumMarkup .fraction l := by
  cases l with
  | nil => rfl
  | cons e l =>
      rw [List.forall_mem_cons] at h
      have hterms : (l.map fun e => betweenMarkup (e.2 < 0) ++ termMarkup style e) =
          l.map fun e => betweenMarkup (e.2 < 0) ++ termMarkup .fraction e :=
        List.map_congr_left fun e he => by rw [termMarkup_of_not_needsNumber (h.2 e he)]
      rw [sumMarkup, sumMarkup, termMarkup_of_not_needsNumber h.1, hterms]

end Terms

end Markup

/-! ## Values -/

namespace Value

open Markup

variable {v : Value} {style : Style}

/-- The value and its free unknowns have names that can be read. -/
def IsNamed (v : Value) : Prop :=
  (Lexeme.name v.name).IsProper ∧ ∀ name ∈ v.freeUnknowns, (Lexeme.name name).IsProper

/-- All terms that are shown can be written. -/
def IsShowable (style : Style) (v : Value) : Prop :=
  style.hasRoom = true ∨ ∀ e ∈ v.shownTerms style, needsNumber e = false

theorem exists_expression_of_hasRoom (hroom : style.hasRoom = true)
    (hproper : ∀ name ∈ v.freeUnknowns, (Lexeme.name name).IsProper) :
    ∃ text, v.expression style = .ok text ∧
      MarksUp text (sumMarkup style (v.shownTerms style)) :=
  ⟨_, expression_eq_sumText (isWritable hroom hproper),
    marksUp_sumText (isProper_of_mem_shownTerms hproper)⟩

/-- What is written for the terms has their markup. -/
theorem exists_expression_marksUp (h : v.IsShowable style)
    (hproper : ∀ name ∈ v.freeUnknowns, (Lexeme.name name).IsProper) :
    ∃ text, v.expression style = .ok text ∧
      MarksUp text (sumMarkup style (v.shownTerms style)) := by
  rcases h with hroom | hnames
  · exact exists_expression_of_hasRoom hroom hproper
  · have hshown : v.shownTerms style = (v.inStyle style).shownTerms .fraction := rfl
    rw [expression_of_names hnames, sumMarkup_of_names hnames, hshown]
    exact exists_expression_of_hasRoom rfl
      fun name hname => hproper name (mem_freeUnknowns_inStyle hname)

theorem exists_text_marksUp (h : v.IsShowable style) (hnamed : v.IsNamed) :
    ∃ text, v.text style = .ok text ∧ MarksUp text (v.termsMarkup style) := by
  obtain ⟨text, htext, hterms⟩ := exists_expression_marksUp h hnamed.2
  refine ⟨v.name.toList ++ [' ', '=', ' '] ++ text, ?_, fun rest hrest => ?_⟩
  · rw [Value.text, htext]
    rfl
  · have hequals : ∀ l, Delimits ([' ', '=', ' '] ++ l) := fun l => delimits_cons (Or.inl rfl) _
    rw [List.append_assoc, List.append_assoc, marksUp_name hnamed.1 _ (hequals _),
      ofText_marks (by simp), hterms rest hrest, termsMarkup, String.append_assoc,
      String.append_assoc]
    rfl

theorem markup_eq (h : v.IsShowable style) (hnamed : v.IsNamed) :
    v.markup style = .ok (v.termsMarkup style) := by
  obtain ⟨text, htext, hmarks⟩ := exists_text_marksUp h hnamed
  rw [markup, htext, ← hmarks.ofText_eq]
  rfl

theorem markup_eq_error_iff {fault : Fault} : v.markup style = .error fault ↔
    (∃ e ∈ v.shownTerms style, needsNumber e = true) ∧
      style.hasRoom = false ∧ fault = .tooManyPlaces :=
  map_eq_error_iff.trans text_eq_error_iff

end Value

/-! ## Solutions -/

namespace Solution

open Markup

variable {s : Solution} {style : Style}

theorem mem_values_of_mem_shown {v : Value} (h : v ∈ s.shown) : v ∈ s.values := by
  rw [shown] at h
  split at h
  · exact h
  · exact (List.mem_filter.mp h).1

/-- The markup of the values that are shown, one after another. -/
def valuesMarkup (style : Style) (s : Solution) : String :=
  ", ".intercalate (s.shown.map (Value.termsMarkup style))

theorem markup_eq (h : ∀ v ∈ s.shown, v.IsShowable style) (hnamed : ∀ v ∈ s.values, v.IsNamed) :
    s.markup style = .ok (s.valuesMarkup style) := by
  obtain ⟨texts, htexts, hmarks⟩ := exists_mapM_eq_ok fun v hv =>
    Value.exists_text_marksUp (h v hv) (hnamed v (mem_values_of_mem_shown hv))
  have hlist : List.Forall₂ MarksUp texts (s.shown.map (Value.termsMarkup style)) :=
    List.forall₂_map_right_iff.mpr hmarks.flip
  rw [markup, Solution.text, htexts, valuesMarkup, ← ofText_intercalate hlist]
  rfl

theorem mapM_markup_eq (h : ∀ v ∈ s.shown, v.IsShowable style)
    (hnamed : ∀ v ∈ s.values, v.IsNamed) :
    s.shown.mapM (Value.markup style) = .ok (s.shown.map (Value.termsMarkup style)) :=
  mapM_eq_ok_iff.mpr (List.forall₂_map_right_iff.mpr (List.forall₂_same.mpr fun v hv =>
    Value.markup_eq (h v hv) (hnamed v (mem_values_of_mem_shown hv))))

theorem markup_of_needsNumber (hroom : style.hasRoom = false)
    (h : ∃ v ∈ s.shown, ∃ e ∈ v.shownTerms style, needsNumber e = true) :
    s.markup style = .error .tooManyPlaces ∧
      s.shown.mapM (Value.markup style) = .error .tooManyPlaces :=
  ⟨map_eq_error_iff.mpr (text_eq_error_iff.mpr ⟨h, hroom, rfl⟩),
    (mapM_eq_error_iff fun _ _ _ => Value.markup_eq_error_iff).mpr ⟨h, hroom, rfl⟩⟩

/-- **The markup of a solution is the markup of its values.** If all names can be read, then the
markup of what is written for a solution is the markup of the values that are shown, each term by
term, in any style with room for numbers; in a style without room this holds as long as no number
is written, and otherwise there is no markup. It always is the markup of the values one by one. -/
theorem markup_follows_terms (s : Solution) (style : Style) (hnamed : ∀ v ∈ s.values, v.IsNamed) :
    (style.hasRoom = true ∨ (∀ v ∈ s.shown, ∀ e ∈ v.shownTerms style, needsNumber e = false) →
      s.markup style = .ok (s.valuesMarkup style)) ∧
    (style.hasRoom = false → (∃ v ∈ s.shown, ∃ e ∈ v.shownTerms style, needsNumber e = true) →
      s.markup style = .error .tooManyPlaces) ∧
    s.markup style = (s.shown.mapM (Value.markup style)).map (", ".intercalate ·) := by
  refine ⟨fun h => markup_eq (fun v hv => h.imp_right fun h => h v hv) hnamed, ?_, ?_⟩
  · exact fun hroom h => (markup_of_needsNumber hroom h).1
  · by_cases h : ∀ v ∈ s.shown, v.IsShowable style
    · rw [markup_eq h hnamed, mapM_markup_eq h hnamed]
      rfl
    · obtain ⟨v, hv, hshow⟩ : ∃ v ∈ s.shown, ¬ v.IsShowable style := by
        simpa only [not_forall, exists_prop] using h
      obtain ⟨hroom, hnumber⟩ := not_or.mp hshow
      obtain ⟨e, he, hneeds⟩ : ∃ e ∈ v.shownTerms style, needsNumber e = true := by
        simpa only [not_forall, exists_prop, Bool.not_eq_false] using hnumber
      obtain ⟨htext, hvalues⟩ :=
        markup_of_needsNumber (Bool.eq_false_iff.mpr hroom) ⟨v, hv, e, he, hneeds⟩
      rw [htext, hvalues]
      rfl

/-- The solution `x = 1/3 - 1/8z, y1 = -5/2`, where `z` is free. -/
def thirdLessEighth : Solution :=
  ⟨[Value.thirdLessEighth, Value.resolved "y1" (-5 / 2), Value.free "z"], false⟩

theorem markup_follows_terms_thirdLessEighth :
    (∀ v ∈ thirdLessEighth.values, v.IsNamed) ∧
      thirdLessEighth.markup (.decimal 2) =
        .ok "<var>x</var> = 0.33 &minus; 0.13<var>z</var>, <var>y1</var> = &minus;2.5" ∧
      thirdLessEighth.markup (.decimal 65535) = .error .tooManyPlaces := by
  have hx : (Lexeme.name "x").IsProper := ⟨'x', [], rfl, rfl, by simp⟩
  have hy : (Lexeme.name "y1").IsProper := ⟨'y', ['1'], rfl, rfl, List.forall_mem_singleton.mpr rfl⟩
  have hz : (Lexeme.name "z").IsProper := ⟨'z', [], rfl, rfl, by simp⟩
  have hfirst : Value.thirdLessEighth.freeUnknowns = ["z"] := by decide +kernel
  have hsecond : (Value.resolved "y1" (-5 / 2)).freeUnknowns = [] := by decide +kernel
  have hthird : (Value.free "z").freeUnknowns = ["z"] := by decide +kernel
  have hnamed : ∀ v ∈ thirdLessEighth.values, v.IsNamed := by
    have hfree : ∀ name ∈ ["z"], (Lexeme.name name).IsProper := List.forall_mem_singleton.mpr hz
    have hnone : ∀ name ∈ ([] : List String), (Lexeme.name name).IsProper := by simp
    exact List.forall_mem_cons.mpr ⟨⟨hx, hfirst ▸ hfree⟩, List.forall_mem_cons.mpr
      ⟨⟨hy, hsecond ▸ hnone⟩, List.forall_mem_singleton.mpr ⟨hz, hthird ▸ hfree⟩⟩⟩
  have hlong : ∃ v ∈ thirdLessEighth.shown, ∃ e ∈ v.shownTerms (.decimal 65535),
      needsNumber e = true := by
    decide +kernel
  have hmarkup : thirdLessEighth.valuesMarkup (.decimal 2) =
      "<var>x</var> = 0.33 &minus; 0.13<var>z</var>, <var>y1</var> = &minus;2.5" := by
    decide +kernel
  refine ⟨hnamed, ?_, ?_⟩
  · rw [← hmarkup]
    exact (markup_follows_terms _ _ hnamed).1 (Or.inl (by decide))
  · exact (markup_follows_terms _ _ hnamed).2.1 (by decide) hlong

end Solution

end LinearSystems
