import LinearSystems.Proofs.MarkupPieces

/-!
# Markup shows the text

Markup is made of parts of few kinds: characters without a meaning of their own, entities, names
in tags, and fractions in tags. So nothing in a text can act as markup. Without its tags and with
its entities decoded, the markup of a text is the text again.

* `IsPart`: what markup is made of.
* `exists_parts`: the markup of a text is made of parts.
* `withoutTags`, `decoded`, `shownText`: the text that markup shows.
* `shownText_markup`: a piece shows its characters.
* `ofText_shows`: the markup of a text shows the text.
-/

namespace LinearSystems.Markup

open Text.Lexeme (IsRun)

/-! ## Parts of markup -/

/-- What markup is made of. -/
inductive IsPart : String → Prop where
  | plain {c : Char} (h : c ≠ '<' ∧ c ≠ '>' ∧ c ≠ '&' ∧ c ≠ '-') : IsPart c.toString
  | entity {entity : String} (h : entity ∈ ["&minus;", "&amp;", "&lt;", "&gt;"]) : IsPart entity
  | name {c : Char} {rest : List Char} (hc : c.isAlpha = true)
      (hrest : ∀ d ∈ rest, d.isAlphanum = true) :
      IsPart ("<var>" ++ String.ofList (c :: rest) ++ "</var>")
  | fraction {numerator denominator : List Char}
      (hnumerator : ∀ c ∈ numerator, c.isDigit = true ∨ c = '.')
      (hdenominator : ∀ c ∈ denominator, c.isDigit = true) :
      IsPart ("<span class=\"fraction\"><span class=\"numerator\">" ++ String.ofList numerator ++
        "</span><span class=\"divider\">/</span><span class=\"denominator\">" ++
        String.ofList denominator ++ "</span></span>")

theorem isDigit_or_of_isRun {digits : List Char} (h : IsRun Char.isDigit continuesNumber digits) :
    ∀ c ∈ digits, c.isDigit = true ∨ c = '.' := by
  obtain ⟨c, rest, rfl, hc, hrest⟩ := h
  exact List.forall_mem_cons.mpr ⟨Or.inl hc, fun d hd => continuesNumber_iff.mp (hrest d hd)⟩

/-- Digits and points have no meaning in markup. -/
theorem isPart_of_isDigit_or {c : Char} (h : c.isDigit = true ∨ c = '.') : IsPart c.toString := by
  apply IsPart.plain
  refine ⟨?_, ?_, ?_, ?_⟩ <;> rintro rfl <;> simp at h

theorem isPart_escape (c : Char) : IsPart (escape c) := by
  unfold escape
  split
  · exact .entity (by decide)
  · exact .entity (by decide)
  · exact .entity (by decide)
  · exact .entity (by decide)
  · next hminus hamp hlt hgt => exact .plain ⟨hlt, hgt, hamp, hminus⟩

theorem join_map_toString (l : List Char) :
    String.join (l.map Char.toString) = String.ofList l := by
  induction l with
  | nil => rfl
  | cons c l ih =>
      rw [List.map_cons, String.join_cons, ih, String.ofList_cons]
      rfl

/-- A text that is the parts of the list, one after another. -/
def IsMadeOf (text : String) (parts : List String) : Prop :=
  text = String.join parts ∧ ∀ part ∈ parts, IsPart part

theorem isMadeOf_singleton {part : String} (h : IsPart part) : IsMadeOf part [part] :=
  ⟨by rw [String.join_cons, String.join_nil, String.append_empty], List.forall_mem_singleton.mpr h⟩

theorem Piece.exists_parts {p : Piece} (h : p.IsProper) : ∃ parts, IsMadeOf p.markup parts := by
  cases p with
  | name text =>
      obtain ⟨c, rest, rfl, hc, hrest⟩ := h
      exact ⟨_, isMadeOf_singleton (.name hc hrest)⟩
  | number digits =>
      have hdigits : ∀ c ∈ digits, c.isDigit = true ∨ c = '.' := isDigit_or_of_isRun h
      refine ⟨digits.map Char.toString, (join_map_toString digits).symm, fun part hpart => ?_⟩
      obtain ⟨c, hc, rfl⟩ := List.mem_map.mp hpart
      exact isPart_of_isDigit_or (hdigits c hc)
  | fraction numerator denominator =>
      exact ⟨_, isMadeOf_singleton (.fraction (isDigit_or_of_isRun h.1) h.2)⟩
  | single c => exact ⟨_, isMadeOf_singleton (isPart_escape c)⟩

theorem exists_parts (text : List Char) : ∃ parts, IsMadeOf (ofText text) parts := by
  have hproper := isProper_of_mem_pieces text
  rw [ofText]
  generalize pieces text = l at hproper
  induction l with
  | nil => exact ⟨[], rfl, fun part hpart => absurd hpart List.not_mem_nil⟩
  | cons p l ih =>
      rw [List.forall_mem_cons] at hproper
      obtain ⟨first, hfirst, hfirstParts⟩ := Piece.exists_parts hproper.1
      obtain ⟨rest, hrest, hrestParts⟩ := ih hproper.2
      refine ⟨first ++ rest, ?_, List.forall_mem_append.mpr ⟨hfirstParts, hrestParts⟩⟩
      rw [List.map_cons, String.join_cons, hfirst, hrest, String.join_append]

/-! ## Tags -/

/-- The text without its tags, each from a less-than sign to the next greater-than sign. -/
def withoutTags : List Char → List Char
  | [] => []
  | c :: rest =>
    if c = '<' then
      match _h : rest.dropWhile (· ≠ '>') with
      | [] => c :: withoutTags rest
      | _ :: after => withoutTags after
    else c :: withoutTags rest
termination_by text => text.length
decreasing_by
  · exact Nat.lt_succ_self _
  · have hrest := (List.dropWhile_suffix (l := rest) (· ≠ '>')).length_le
    rw [_h, List.length_cons] at hrest
    exact Nat.lt_succ_of_lt hrest
  · exact Nat.lt_succ_self _

def IsTag (text : List Char) : Prop :=
  ∃ inner, text = '<' :: inner ++ ['>'] ∧ ∀ c ∈ inner, c ≠ '>'

theorem withoutTags_tag {tag : List Char} (h : IsTag tag) (rest : List Char) :
    withoutTags (tag ++ rest) = withoutTags rest := by
  obtain ⟨inner, rfl, hinner⟩ := h
  have hdrop : (inner ++ '>' :: rest).dropWhile (· ≠ '>') = '>' :: rest := by
    rw [List.dropWhile_append_of_pos fun c hc => decide_eq_true (hinner c hc)]
    rfl
  rw [List.append_assoc, List.cons_append, List.singleton_append, withoutTags, if_pos rfl]
  split
  · next hnone =>
    rw [hdrop] at hnone
    cases hnone
  · next hafter =>
    rw [hdrop] at hafter
    rw [(List.cons.inj hafter).2]

theorem withoutTags_append {l : List Char} (h : ∀ c ∈ l, c ≠ '<') (rest : List Char) :
    withoutTags (l ++ rest) = l ++ withoutTags rest := by
  induction l with
  | nil => rfl
  | cons c l ih =>
      rw [List.forall_mem_cons] at h
      rw [List.cons_append, withoutTags, if_neg h.1, ih h.2, List.cons_append]

/-! ## Entities -/

/-- The text with its entities decoded, from left to right. -/
def decoded : List Char → List Char
  | '&' :: 'm' :: 'i' :: 'n' :: 'u' :: 's' :: ';' :: rest => '-' :: decoded rest
  | '&' :: 'a' :: 'm' :: 'p' :: ';' :: rest => '&' :: decoded rest
  | '&' :: 'l' :: 't' :: ';' :: rest => '<' :: decoded rest
  | '&' :: 'g' :: 't' :: ';' :: rest => '>' :: decoded rest
  | c :: rest => c :: decoded rest
  | [] => []

theorem decoded_cons {c : Char} (h : c ≠ '&') (rest : List Char) :
    decoded (c :: rest) = c :: decoded rest := by
  rw [decoded]
  all_goals exact fun _ hc => absurd hc h

theorem decoded_append {l : List Char} (h : ∀ c ∈ l, c ≠ '&') (rest : List Char) :
    decoded (l ++ rest) = l ++ decoded rest := by
  induction l with
  | nil => rfl
  | cons c l ih =>
      rw [List.forall_mem_cons] at h
      rw [List.cons_append, decoded_cons h.1, ih h.2, List.cons_append]

/-! ## The text that is shown -/

/-- The text that markup shows. -/
def shownText (markup : List Char) : List Char := decoded (withoutTags markup)

section Shown

variable {l tag : List Char}

theorem shownText_tag (h : IsTag tag) (rest : List Char) :
    shownText (tag ++ rest) = shownText rest := by
  rw [shownText, withoutTags_tag h, shownText]

theorem shownText_append (h : ∀ c ∈ l, c ≠ '<' ∧ c ≠ '&') (rest : List Char) :
    shownText (l ++ rest) = l ++ shownText rest := by
  rw [shownText, withoutTags_append fun c hc => (h c hc).1, decoded_append fun c hc => (h c hc).2,
    shownText]

theorem shownText_escape (c : Char) (rest : List Char) :
    shownText ((escape c).toList ++ rest) = c :: shownText rest := by
  have hentity : ∀ l : List Char, (∀ d ∈ l, d ≠ '<') →
      shownText (l ++ rest) = decoded (l ++ withoutTags rest) :=
    fun l hl => congrArg decoded (withoutTags_append hl rest)
  unfold escape
  split
  · exact hentity "&minus;".toList (by simp)
  · exact hentity "&amp;".toList (by simp)
  · exact hentity "&lt;".toList (by simp)
  · exact hentity "&gt;".toList (by simp)
  · next hminus hamp hlt hgt =>
    have hself : c.toString.toList = [c] := by simp
    rw [hself]
    exact shownText_append (List.forall_mem_singleton.mpr ⟨hlt, hamp⟩) rest

theorem ne_of_isAlphanum {c : Char} (h : c.isAlphanum = true) : c ≠ '<' ∧ c ≠ '&' := by
  constructor <;> rintro rfl <;> cases h

theorem ne_of_isDigit_or {c : Char} (h : c.isDigit = true ∨ c = '.') : c ≠ '<' ∧ c ≠ '&' := by
  constructor <;> rintro rfl <;> simp at h

theorem shownText_name (h : IsRun Char.isAlpha Char.isAlphanum l) (rest : List Char) :
    shownText ((Piece.name l).markup.toList ++ rest) = l ++ shownText rest := by
  have hopening : IsTag "<var>".toList := ⟨"var".toList, by simp, by simp⟩
  have hclosing : IsTag "</var>".toList := ⟨"/var".toList, by simp, by simp⟩
  have hletters : ∀ c ∈ l, c ≠ '<' ∧ c ≠ '&' := by
    obtain ⟨c, letters, rfl, hc, hrest⟩ := h
    refine List.forall_mem_cons.mpr ⟨ne_of_isAlphanum ?_, fun d hd => ne_of_isAlphanum (hrest d hd)⟩
    rw [Char.isAlphanum, hc, Bool.true_or]
  simp only [Piece.markup, String.toList_append, String.toList_ofList, List.append_assoc]
  rw [shownText_tag hopening, shownText_append hletters, shownText_tag hclosing]

theorem toList_fraction (numerator denominator : List Char) :
    (fraction numerator denominator).toList =
      "<span class=\"fraction\">".toList ++ ("<span class=\"numerator\">".toList ++
        (numerator ++ ("</span>".toList ++ ("<span class=\"divider\">".toList ++
          ('/' :: ("</span>".toList ++ ("<span class=\"denominator\">".toList ++
            (denominator ++ ("</span>".toList ++ "</span>".toList))))))))) := by
  have hopening : "<span class=\"fraction\"><span class=\"numerator\">".toList =
      "<span class=\"fraction\">".toList ++ "<span class=\"numerator\">".toList := by simp
  have hdivider : "</span><span class=\"divider\">/</span><span class=\"denominator\">".toList =
      "</span>".toList ++ ("<span class=\"divider\">".toList ++
        ('/' :: ("</span>".toList ++ "<span class=\"denominator\">".toList))) := by simp
  have hclosing : "</span></span>".toList = "</span>".toList ++ "</span>".toList := by simp
  unfold fraction
  simp only [String.toList_append, String.toList_ofList, hopening, hdivider, hclosing,
    List.append_assoc, List.cons_append]

theorem shownText_fraction {numerator denominator : List Char}
    (hnumerator : ∀ c ∈ numerator, c.isDigit = true ∨ c = '.')
    (hdenominator : ∀ c ∈ denominator, c.isDigit = true) (rest : List Char) :
    shownText ((fraction numerator denominator).toList ++ rest) =
      numerator ++ '/' :: denominator ++ shownText rest := by
  have hwhole : IsTag "<span class=\"fraction\">".toList :=
    ⟨"span class=\"fraction\"".toList, by simp, by simp⟩
  have habove : IsTag "<span class=\"numerator\">".toList :=
    ⟨"span class=\"numerator\"".toList, by simp, by simp⟩
  have hdivider : IsTag "<span class=\"divider\">".toList :=
    ⟨"span class=\"divider\"".toList, by simp, by simp⟩
  have hbelow : IsTag "<span class=\"denominator\">".toList :=
    ⟨"span class=\"denominator\"".toList, by simp, by simp⟩
  have hclosing : IsTag "</span>".toList := ⟨"/span".toList, by simp, by simp⟩
  have hslash : ∀ c ∈ ['/'], c ≠ '<' ∧ c ≠ '&' := by simp
  simp only [toList_fraction, List.append_assoc, List.cons_append]
  rw [shownText_tag hwhole, shownText_tag habove,
    shownText_append fun c hc => ne_of_isDigit_or (hnumerator c hc), shownText_tag hclosing,
    shownText_tag hdivider, ← List.singleton_append, shownText_append hslash,
    shownText_tag hclosing, shownText_tag hbelow,
    shownText_append fun c hc => ne_of_isDigit_or (Or.inl (hdenominator c hc)),
    shownText_tag hclosing, shownText_tag hclosing, List.singleton_append]

/-- The markup of a piece shows its characters. -/
theorem shownText_markup {p : Piece} (h : p.IsProper) (rest : List Char) :
    shownText (p.markup.toList ++ rest) = p.chars ++ shownText rest := by
  cases p with
  | name text => exact shownText_name h rest
  | number digits =>
      rw [Piece.markup, String.toList_ofList]
      exact shownText_append (fun c hc => ne_of_isDigit_or (isDigit_or_of_isRun h c hc)) rest
  | fraction numerator denominator =>
      exact shownText_fraction (isDigit_or_of_isRun h.1) h.2 rest
  | single c => exact shownText_escape c rest

end Shown

theorem shownText_ofText (text : List Char) : shownText (ofText text).toList = text := by
  have hproper := isProper_of_mem_pieces text
  conv_rhs => rw [← flatMap_chars_pieces text]
  rw [ofText]
  generalize pieces text = l at hproper
  induction l with
  | nil =>
      rw [List.map_nil, String.join_nil, shownText, String.toList_empty, withoutTags]
      rfl
  | cons p l ih =>
      rw [List.forall_mem_cons] at hproper
      rw [List.map_cons, String.join_cons, String.toList_append, shownText_markup hproper.1,
        ih hproper.2, List.flatMap_cons]

/-- **Markup shows the text and nothing else.** The markup of a text is made of characters
without a meaning of their own, entities, names in tags, and fractions in tags; without its tags
and with its entities decoded, it is the text. -/
theorem ofText_shows (text : List Char) :
    (∃ parts, ofText text = String.join parts ∧ ∀ part ∈ parts, IsPart part) ∧
      decoded (withoutTags (ofText text).toList) = text :=
  ⟨exists_parts text, shownText_ofText text⟩

end LinearSystems.Markup
