import LinearSystems.Proofs.Scanning
import LinearSystems.Proofs.Traversals
import LinearSystems.Proofs.ValueTrees
import LinearSystems.Rendering

/-!
# What is written for a value

The text of a value has, blanks aside, the characters of a tree: that of its terms. So it is
scanned to the lexemes of the tree, since no name or literal could go on with what stands
after it: names come last in a term, and literals before a name or a sign.

* `Style.Writes`: a style writes a number as a sign and a literal.
* `dropPlus_intercalate`: plus signs before minus signs are dropped.
* `sumText`, `Value.expression_eq_sumText`: the expression of a value is a sum of terms.
* `Value.exists_expression`: it has the characters of a tree.
* `isChain_sumTree`: no lexeme of the tree could go on with the one after it.
-/

namespace LinearSystems

open Number Text Grammar

/-! ## Numbers -/

/-- The style writes the number as its sign and the literal `text`. -/
structure Number.Style.Writes (style : Style) (q : Rat) (text : List Char) : Prop where
  write_eq : style.write q = .ok (sign (q < 0) ++ text)
  isRun : Lexeme.IsRun Lexeme.startsNumber Lexeme.continuesNumber text
  value_eq : ofText? text = some |q|

/-- How fractions write a number without its sign. -/
def Number.fractionLiteral (q : Rat) : List Char := fractionText |q|

theorem Number.Style.fraction_writes (q : Rat) : fraction.Writes q (fractionLiteral q) where
  write_eq := by
    rcases lt_or_ge q 0 with hq | hq
    · rw [write, fractionLiteral, fractionText_of_neg hq, abs_of_neg hq]
      simp [sign, hq]
    · rw [write, fractionLiteral, abs_of_nonneg hq]
      simp [sign, not_lt.mpr hq]
  isRun := by
    obtain ⟨c, rest, htext, hc⟩ := exists_fractionText_eq_cons (abs_nonneg q)
    refine ⟨c, rest, htext, ?_, fun d hd => ?_⟩
    · rw [Lexeme.startsNumber, hc]
      rfl
    · have hmem : d ∈ fractionText |q| := htext ▸ List.mem_cons_of_mem c hd
      rcases mem_fractionText (abs_nonneg q) hmem with hdigit | rfl
      · rw [Lexeme.continuesNumber, Lexeme.startsNumber, hdigit]
        rfl
      · rfl
  value_eq := ofText?_fractionText (abs_nonneg q)

/-! ## Plus signs -/

section Plus

variable {c : Char} {t rest : List Char}

theorem dropPlus_cons (h : c ≠ '+') : dropPlus (c :: rest) = c :: dropPlus rest := by
  rw [dropPlus]
  rintro rest rfl
  exact absurd rfl h

theorem dropPlus_append (h : ∀ c ∈ t, c ≠ '+') : dropPlus (t ++ rest) = t ++ dropPlus rest := by
  induction t with
  | nil => rfl
  | cons c t ih =>
      rw [List.forall_mem_cons] at h
      rw [List.cons_append, dropPlus_cons h.1, ih h.2, List.cons_append]

/-- The sign between two terms, as it is written. -/
def between (isNegative : Bool) : List Char := [' ', if isNegative then '-' else '+', ' ']

theorem dropPlus_between (isNegative : Bool) (hne : t ≠ [])
    (ht : ∀ c ∈ t, c ≠ '+' ∧ c ≠ '-') :
    dropPlus ([' ', '+', ' '] ++ (sign isNegative ++ t) ++ rest) =
      between isNegative ++ t ++ dropPlus rest := by
  obtain ⟨c, t, rfl⟩ := List.exists_cons_of_ne_nil hne
  have hplus : ∀ d ∈ c :: t, d ≠ '+' := fun d hd => (ht d hd).1
  have hc : c ≠ '-' := (ht c List.mem_cons_self).2
  have hrest : dropPlus (c :: t ++ rest) = c :: t ++ dropPlus rest := dropPlus_append hplus
  cases isNegative with
  | true => exact congrArg ([' ', '-', ' '] ++ ·) hrest
  | false =>
      have hkeep : dropPlus ('+' :: ' ' :: c :: (t ++ rest)) =
          '+' :: dropPlus (' ' :: c :: (t ++ rest)) := by
        rw [dropPlus]
        intro rest _ hminus
        exact absurd (List.cons.inj (List.cons.inj hminus).2).1 hc
      have hblank : ∀ l, dropPlus (' ' :: l) = ' ' :: dropPlus l :=
        fun l => dropPlus_cons (by decide)
      show dropPlus (' ' :: '+' :: ' ' :: c :: (t ++ rest)) = _
      rw [hblank, hkeep, hblank]
      exact congrArg ([' ', '+', ' '] ++ ·) hrest

theorem intercalate_cons (sep t : List Char) (l : List (List Char)) :
    sep.intercalate (t :: l) = t ++ l.flatMap (sep ++ ·) := by
  induction l generalizing t with
  | nil => rw [List.intercalate_singleton, List.flatMap_nil, List.append_nil]
  | cons u l ih =>
      rw [List.intercalate_cons_cons, ih, List.flatMap_cons, List.append_assoc, List.append_assoc]

/-- A sum of terms, of which each has its sign in front. -/
theorem dropPlus_intercalate {α : Type} (isNegative : α → Bool) {text : α → List Char} {a : α}
    {l : List α} (htext : ∀ b ∈ a :: l, text b ≠ [] ∧ ∀ c ∈ text b, c ≠ '+' ∧ c ≠ '-') :
    dropPlus ([' ', '+', ' '].intercalate ((a :: l).map fun b => sign (isNegative b) ++ text b)) =
      sign (isNegative a) ++ text a ++ l.flatMap fun b => between (isNegative b) ++ text b := by
  rw [List.forall_mem_cons] at htext
  have hplus : ∀ c ∈ sign (isNegative a) ++ text a, c ≠ '+' := by
    intro c hc
    rcases List.mem_append.mp hc with hc | hc
    · intro heq
      cases hneg : isNegative a <;> simp [sign, hneg, heq] at hc
    · exact (htext.1.2 c hc).1
  have hrest : ∀ l' : List α, (∀ b ∈ l', text b ≠ [] ∧ ∀ c ∈ text b, c ≠ '+' ∧ c ≠ '-') →
      dropPlus ((l'.map fun b => sign (isNegative b) ++ text b).flatMap ([' ', '+', ' '] ++ ·)) =
        l'.flatMap fun b => between (isNegative b) ++ text b := by
    intro l' hl'
    induction l' with
    | nil => rfl
    | cons b l' ih =>
        rw [List.forall_mem_cons] at hl'
        rw [List.map_cons, List.flatMap_cons, dropPlus_between _ hl'.1.1 hl'.1.2, ih hl'.2,
          List.flatMap_cons]
  rw [List.map_cons, intercalate_cons, dropPlus_append hplus, hrest l htext.2]

end Plus

/-! ## Words -/

/-- A text without blanks and signs, such as a name or a literal. -/
def IsWord (t : List Char) : Prop :=
  t ≠ [] ∧ ∀ c ∈ t, (Lexeme.continuesName c || Lexeme.continuesNumber c) = true

theorem IsWord.isBlank_eq_false {t : List Char} (h : IsWord t) :
    ∀ c ∈ t, isBlank c = false := by
  intro c hc
  have hword := h.2 c hc
  simp only [Lexeme.continuesName, Lexeme.continuesNumber, Lexeme.startsNumber,
    Bool.or_eq_true, beq_iff_eq] at hword
  rcases hword with hword | ((hword | rfl) | rfl) | rfl
  · exact isBlank_of_isAlphanum hword
  · exact isBlank_of_isAlphanum (by rw [Char.isAlphanum, hword, Bool.or_true])
  all_goals rfl

theorem IsWord.ne_sign {t : List Char} (h : IsWord t) : ∀ c ∈ t, c ≠ '+' ∧ c ≠ '-' := by
  intro c hc
  have hword := h.2 c hc
  constructor
  · rintro rfl
    cases hword
  · rintro rfl
    cases hword

theorem IsWord.append {t u : List Char} (ht : IsWord t) (hu : IsWord u) : IsWord (t ++ u) := by
  refine ⟨List.append_ne_nil_of_left_ne_nil ht.1 u, fun c hc => ?_⟩
  rcases List.mem_append.mp hc with hc | hc
  · exact ht.2 c hc
  · exact hu.2 c hc

theorem isWord_of_name {t : List Char} (h : Lexeme.IsRun Lexeme.startsName Lexeme.continuesName t) :
    IsWord t := by
  obtain ⟨c, rest, rfl, hc, hrest⟩ := h
  refine ⟨List.cons_ne_nil c rest, List.forall_mem_cons.mpr ⟨?_, fun d hd => ?_⟩⟩
  · have halpha : c.isAlpha = true := hc
    rw [Lexeme.continuesName, Char.isAlphanum, halpha]
    rfl
  · rw [hrest d hd]
    rfl

theorem isWord_of_number {t : List Char}
    (h : Lexeme.IsRun Lexeme.startsNumber Lexeme.continuesNumber t) : IsWord t := by
  obtain ⟨c, rest, rfl, hc, hrest⟩ := h
  refine ⟨List.cons_ne_nil c rest, List.forall_mem_cons.mpr ⟨?_, fun d hd => ?_⟩⟩
  · rw [Lexeme.continuesNumber, hc, Bool.true_or, Bool.or_true]
  · rw [hrest d hd, Bool.or_true]

/-! ## Terms -/

/-- The name of the symbol can be read, and so can the coefficient. -/
structure IsWritable (style : Style) (literal : Rat → List Char) (e : Symbol × Rat) : Prop where
  writes : style.Writes e.2 (literal e.2)
  isProper : ∀ name, e.1 = .unknown name → (Lexeme.name name).IsProper

/-- A term without its sign, as it is written. -/
def termWord (literal : Rat → List Char) (e : Symbol × Rat) : List Char :=
  (termFactors literal e).lexemes.flatMap Lexeme.chars

section Terms

variable {style : Style} {literal : Rat → List Char} {e : Symbol × Rat} {l : List (Symbol × Rat)}

theorem termWord_constant (q : Rat) : termWord literal (.constant, q) = literal q := by
  simp [termWord, termFactors, Factors.lexemes, Atom.lexeme, Lexeme.chars, Lexeme.text]

theorem termWord_unknown (name : String) (q : Rat) : termWord literal (.unknown name, q) =
    (if q = 1 ∨ q = -1 then [] else literal q) ++ name.toList := by
  rw [termWord, termFactors]
  split <;> simp [Factors.lexemes, Atom.lexeme, starLexemes, Lexeme.chars, Lexeme.text]

theorem IsWritable.isWord (h : IsWritable style literal e) : IsWord (termWord literal e) := by
  obtain ⟨_ | name, q⟩ := e
  · rw [termWord_constant]
    exact isWord_of_number h.writes.isRun
  · have hname : IsWord name.toList := isWord_of_name (h.isProper name rfl)
    rw [termWord_unknown]
    split
    · exact hname
    · exact (isWord_of_number h.writes.isRun).append hname

theorem IsWritable.termText_eq (h : IsWritable style literal e) :
    termText style e = .ok (sign (e.2 < 0) ++ termWord literal e) := by
  obtain ⟨_ | name, q⟩ := e
  · rw [termText, termWord_constant]
    exact h.writes.write_eq
  · rw [termText, termWord_unknown]
    split
    · next hone =>
      rw [hone]
      rfl
    · split
      · next hminus =>
        rw [hminus]
        rfl
      · next hone hminus =>
        rw [h.writes.write_eq, if_neg (not_or.mpr ⟨hone, hminus⟩), ← List.append_assoc]
        rfl

/-- The terms of a value that are written. -/
def Value.shownTerms (style : Style) (v : Value) : List (Symbol × Rat) :=
  (v.inStyle style).terms.entries.filter fun e => decide (e.2 ≠ 0)

theorem chars_of_sign (q : Rat) :
    (Sign.of q).lexeme.chars = [if q < 0 then '-' else '+'] := by
  rw [Sign.of]
  split <;> simp [Sign.lexeme, Lexeme.chars, Lexeme.text]

theorem filter_between (isNegative : Bool) :
    (between isNegative).filter (fun c => !isBlank c) = [if isNegative then '-' else '+'] := by
  cases isNegative <;> rfl

theorem IsWord.filter_isBlank {t : List Char} (h : IsWord t) :
    t.filter (fun c => !isBlank c) = t := by
  apply List.filter_eq_self.mpr
  intro c hc
  rw [h.isBlank_eq_false c hc]
  rfl

/-- The text of a sum of terms, zero if there are none. -/
def sumText (literal : Rat → List Char) : List (Symbol × Rat) → List Char
  | [] => ['0']
  | e :: l => sign (e.2 < 0) ++ termWord literal e ++
      l.flatMap fun e => between (e.2 < 0) ++ termWord literal e

/-- Without blanks, the text of a sum has the characters of its tree. -/
theorem filter_isBlank_sumText (h : ∀ e ∈ l, IsWord (termWord literal e)) :
    (sumText literal l).filter (fun c => !isBlank c) =
      (sumTree literal l).lexemes.flatMap Lexeme.chars := by
  cases l with
  | nil => rfl
  | cons e l =>
      have hlead : (sign (e.2 < 0)).filter (fun c => !isBlank c) =
          (if e.2 < 0 then [Lexeme.minus] else []).flatMap Lexeme.chars := by
        by_cases hneg : e.2 < 0 <;> simp [sign, hneg, Lexeme.chars, Lexeme.text, isBlank]
      have hrest : ∀ e' ∈ l,
          (between (e'.2 < 0) ++ termWord literal e').filter (fun c => !isBlank c) =
            ((Sign.of e'.2).lexeme :: (termFactors literal e').lexemes).flatMap Lexeme.chars := by
        intro e' he'
        rw [List.filter_append, filter_between, (h e' (List.mem_cons_of_mem e he')).filter_isBlank,
          List.flatMap_cons, chars_of_sign]
        simp only [decide_eq_true_eq]
        rfl
      rw [sumText, List.filter_append, List.filter_append, (h e List.mem_cons_self).filter_isBlank,
        hlead, List.filter_flatMap, lexemes_sumTree_cons, lexemes_leading, List.flatMap_append,
        List.flatMap_append, List.flatMap_assoc]
      exact congrArg _ (List.flatMap_congr hrest)

/-- The expression of a value is the sum of the terms that are shown. -/
theorem Value.expression_eq_sumText {v : Value}
    (h : ∀ e ∈ v.shownTerms style, IsWritable style literal e) :
    v.expression style = .ok (sumText literal (v.shownTerms style)) := by
  have hexpression : v.expression style =
      if (v.shownTerms style).isEmpty then .ok ['0']
      else ((v.shownTerms style).mapM (termText style)).map fun texts =>
        dropPlus ([' ', '+', ' '].intercalate texts) := rfl
  rw [hexpression]
  generalize v.shownTerms style = l at h
  cases l with
  | nil => rfl
  | cons e rest =>
      have htexts : (e :: rest).mapM (termText style) =
          .ok ((e :: rest).map fun e => sign (e.2 < 0) ++ termWord literal e) :=
        mapM_eq_ok_iff.mpr (List.forall₂_map_right_iff.mpr
          (List.forall₂_same.mpr fun e he => (h e he).termText_eq))
      have hdrop := dropPlus_intercalate (fun e => decide (e.2 < 0))
        fun e he => ⟨(h e he).isWord.1, (h e he).isWord.ne_sign⟩
      rw [htexts, sumText]
      exact congrArg Except.ok hdrop

/-- The expression of a value has, blanks aside, the characters of its tree. -/
theorem Value.exists_expression {v : Value}
    (h : ∀ e ∈ v.shownTerms style, IsWritable style literal e) :
    ∃ text, v.expression style = .ok text ∧ text.filter (fun c => !isBlank c) =
      (sumTree literal (v.shownTerms style)).lexemes.flatMap Lexeme.chars :=
  ⟨_, expression_eq_sumText h, filter_isBlank_sumText fun e he => (h e he).isWord⟩

/-! ## Lexemes -/

theorem parts_sign (a : Lexeme) (q : Rat) : a.Parts (Sign.of q).lexeme := by
  intro c hc
  rw [chars_of_sign, List.head?_singleton, Option.mem_some_iff] at hc
  subst hc
  cases a <;> split <;> rfl

theorem sign_parts (sign : Sign) (b : Lexeme) : sign.lexeme.Parts b := by
  intro c _
  cases sign <;> rfl

theorem IsWritable.isProper_of_mem (h : IsWritable style literal e) :
    ∀ a ∈ (termFactors literal e).lexemes, a.IsProper := by
  have hliteral : (Lexeme.number (String.ofList (literal e.2))).IsProper := by
    have hrun := h.writes.isRun
    rwa [← String.toList_ofList (l := literal e.2)] at hrun
  obtain ⟨_ | name, q⟩ := e
  · simpa [termFactors, Factors.lexemes, Atom.lexeme] using hliteral
  · have hname := h.isProper name rfl
    rw [termFactors]
    split
    · simpa [Factors.lexemes, Atom.lexeme] using hname
    · simpa [Factors.lexemes, Atom.lexeme, starLexemes] using ⟨hliteral, hname⟩

/-- A literal does not go on with a name. -/
theorem number_parts_name {text name : String} (h : (Lexeme.name name).IsProper) :
    (Lexeme.number text).Parts (.name name) := by
  obtain ⟨c, rest, hchars, hc, -⟩ := h
  intro d hd
  rw [hchars, List.head?_cons, Option.mem_some_iff] at hd
  subst hd
  exact Lexeme.continuesNumber_of_startsName hc

theorem IsWritable.isChain (h : IsWritable style literal e) :
    (termFactors literal e).lexemes.IsChain Lexeme.Parts := by
  obtain ⟨_ | name, q⟩ := e
  · exact List.isChain_singleton _
  · have hname := h.isProper name rfl
    rw [termFactors]
    split
    · exact List.isChain_singleton _
    · exact List.isChain_pair.mpr (number_parts_name hname)

theorem isChain_append_terms {first : List Lexeme} (hfirst : first.IsChain Lexeme.Parts)
    (h : ∀ e ∈ l, IsWritable style literal e) :
    (first ++ l.flatMap fun e => (Sign.of e.2).lexeme :: (termFactors literal e).lexemes).IsChain
      Lexeme.Parts := by
  induction l generalizing first with
  | nil => rwa [List.flatMap_nil, List.append_nil]
  | cons e l ih =>
      rw [List.forall_mem_cons] at h
      rw [List.flatMap_cons, ← List.append_assoc]
      refine ih (List.isChain_append.mpr ⟨hfirst, ?_, fun a _ b hb => ?_⟩) h.2
      · exact List.isChain_cons.mpr ⟨fun b _ => sign_parts _ b, h.1.isChain⟩
      · rw [List.head?_cons, Option.mem_some_iff] at hb
        exact hb ▸ parts_sign a e.2

theorem isProper_of_mem_sumTree (h : ∀ e ∈ l, IsWritable style literal e) :
    ∀ a ∈ (sumTree literal l).lexemes, a.IsProper := by
  apply forall_mem_lexemes_sumTree
  · exact ⟨'0', [], rfl, rfl, fun d hd => absurd hd List.not_mem_nil⟩
  · intro sign
    cases sign <;> trivial
  · exact fun e he => (h e he).isProper_of_mem

/-- No lexeme of a sum could go on with the one after it. -/
theorem isChain_sumTree (h : ∀ e ∈ l, IsWritable style literal e) :
    (sumTree literal l).lexemes.IsChain Lexeme.Parts := by
  cases l with
  | nil => exact List.isChain_singleton _
  | cons e rest =>
      rw [List.forall_mem_cons] at h
      rw [lexemes_sumTree_cons, lexemes_leading]
      apply isChain_append_terms _ h.2
      split
      · exact List.isChain_cons.mpr ⟨fun b _ => sign_parts .minus b, h.1.isChain⟩
      · exact h.1.isChain

theorem eq_of_number_mem_termFactors {text : String}
    (ha : Lexeme.number text ∈ (termFactors literal e).lexemes) :
    text = String.ofList (literal e.2) := by
  obtain ⟨_ | name, q⟩ := e
  · simpa [termFactors, Factors.lexemes, Atom.lexeme] using ha
  · rw [termFactors] at ha
    split at ha
    · simp [Factors.lexemes, Atom.lexeme] at ha
    · simpa [Factors.lexemes, Atom.lexeme, starLexemes] using ha

theorem hasNumbers_sumTree (h : ∀ e ∈ l, IsWritable style literal e) :
    HasNumbers (sumTree literal l).lexemes := by
  have hread : ∀ a ∈ (sumTree literal l).lexemes, ∀ text, a = Lexeme.number text →
      (ofText? text.toList).isSome := by
    apply forall_mem_lexemes_sumTree
    · rintro _ ⟨rfl⟩
      decide +kernel
    · intro sign text hsign
      cases sign <;> cases hsign
    · rintro e he _ ha text rfl
      rw [eq_of_number_mem_termFactors ha, String.toList_ofList, (h e he).writes.value_eq]
      rfl
  exact fun text htext => hread _ htext text rfl

end Terms

end LinearSystems
