import LinearSystems.Proofs.Scanning
import LinearSystems.Rendering

/-!
# Pieces of a text

The pieces that a text is cut into for markup have all of its characters, in order. A name is a
letter with letters and digits after it, a number is a digit with digits and points after it,
and a fraction is a number with a slash and digits after it; each goes on as far as it can.

* `Piece.IsProper`, `isProper_of_mem_pieces`: what pieces are like.
* `flatMap_chars_pieces`: no character is lost or added.
* `ofText_of_pieces`: the pieces of a text are marked up one after another.
* `ofText_name`, `ofText_number`, `ofText_fraction`, `ofText_single`: the first piece of a text.
-/

namespace LinearSystems.Markup

open Text.Lexeme (IsRun)

theorem continuesNumber_iff {c : Char} : continuesNumber c = true ↔ c.isDigit = true ∨ c = '.' := by
  rw [continuesNumber, Bool.or_eq_true, beq_iff_eq]

/-! ## Characters of a piece -/

/-- The characters that are marked up as a piece. -/
def Piece.chars : Piece → List Char
  | name text => text
  | number digits => digits
  | fraction numerator denominator => numerator ++ '/' :: denominator
  | single char => [char]

/-- What a piece is made of. -/
def Piece.IsProper : Piece → Prop
  | name text => IsRun Char.isAlpha Char.isAlphanum text
  | number digits => IsRun Char.isDigit continuesNumber digits
  | fraction numerator denominator =>
    IsRun Char.isDigit continuesNumber numerator ∧ ∀ c ∈ denominator, c.isDigit = true
  | single char => char.isAlpha = false ∧ char.isDigit = false

theorem isRun_takeWhile {starts continues : Char → Bool} {c : Char} (h : starts c = true)
    (rest : List Char) : IsRun starts continues (c :: rest.takeWhile continues) :=
  ⟨c, _, rfl, h, fun _ => List.mem_takeWhile_imp⟩

theorem isProper_of_mem_pieces (text : List Char) : ∀ p ∈ pieces text, p.IsProper := by
  fun_induction pieces text with
  | case1 => exact fun p hp => absurd hp List.not_mem_nil
  | case2 c rest halpha ih =>
      exact List.forall_mem_cons.mpr ⟨isRun_takeWhile halpha rest, ih⟩
  | case3 c rest halpha hdigit number after hslash ih =>
      refine List.forall_mem_cons.mpr ⟨⟨isRun_takeWhile hdigit rest, ?_⟩, ih⟩
      exact fun d => List.mem_takeWhile_imp
  | case4 c rest halpha hdigit number hslash ih =>
      exact List.forall_mem_cons.mpr ⟨isRun_takeWhile hdigit rest, ih⟩
  | case5 c rest halpha hdigit ih =>
      refine List.forall_mem_cons.mpr ⟨⟨?_, ?_⟩, ih⟩
      · exact Bool.eq_false_iff.mpr halpha
      · exact Bool.eq_false_iff.mpr hdigit

/-- The pieces of a text have its characters. -/
theorem flatMap_chars_pieces (text : List Char) : (pieces text).flatMap Piece.chars = text := by
  fun_induction pieces text with
  | case1 => rfl
  | case2 c rest halpha ih =>
      rw [List.flatMap_cons, ih, Piece.chars, List.cons_append, List.takeWhile_append_dropWhile]
  | case3 c rest halpha hdigit number after hslash ih =>
      rw [List.flatMap_cons, ih, Piece.chars, List.append_assoc, List.cons_append,
        List.cons_append, List.takeWhile_append_dropWhile, ← hslash,
        List.takeWhile_append_dropWhile]
  | case4 c rest halpha hdigit number hslash ih =>
      rw [List.flatMap_cons, ih, Piece.chars, List.cons_append, List.takeWhile_append_dropWhile]
  | case5 c rest halpha hdigit ih => rw [List.flatMap_cons, ih, Piece.chars, List.singleton_append]

/-! ## Pieces one by one -/

theorem ofText_nil : ofText [] = "" := by
  rw [ofText, pieces]
  rfl

theorem ofText_of_pieces {text rest : List Char} {p : Piece} (h : pieces text = p :: pieces rest) :
    ofText text = p.markup ++ ofText rest := by
  rw [ofText, h, List.map_cons, String.join_cons, ofText]

theorem takeWhile_append_of_stop {accepts : Char → Bool} {l rest : List Char}
    (hl : ∀ c ∈ l, accepts c = true) (hrest : ∀ c ∈ rest.head?, accepts c = false) :
    (l ++ rest).takeWhile accepts = l ∧ (l ++ rest).dropWhile accepts = rest := by
  rw [List.takeWhile_append_of_pos hl, List.dropWhile_append_of_pos hl]
  cases rest with
  | nil => simp
  | cons c rest => simp [hrest c rfl]

section First

variable {text rest numerator denominator : List Char} {c : Char}

theorem ofText_name (h : IsRun Char.isAlpha Char.isAlphanum text)
    (hrest : ∀ c ∈ rest.head?, c.isAlphanum = false) :
    ofText (text ++ rest) = "<var>" ++ String.ofList text ++ "</var>" ++ ofText rest := by
  obtain ⟨c, letters, rfl, hc, hletters⟩ := h
  obtain ⟨htake, hdrop⟩ := takeWhile_append_of_stop hletters hrest
  apply ofText_of_pieces (p := .name (c :: letters))
  rw [List.cons_append, pieces, if_pos hc, htake, hdrop]

/-- A digit is no letter. -/
theorem isAlpha_ne_true_of_isDigit (h : c.isDigit = true) : ¬ c.isAlpha = true := by
  intro halpha
  rw [Text.isDigit_of_isAlpha halpha] at h
  cases h

theorem ofText_number (h : IsRun Char.isDigit continuesNumber text)
    (hrest : ∀ c ∈ rest.head?, continuesNumber c = false ∧ c ≠ '/') :
    ofText (text ++ rest) = String.ofList text ++ ofText rest := by
  obtain ⟨c, digits, rfl, hc, hdigits⟩ := h
  obtain ⟨htake, hdrop⟩ := takeWhile_append_of_stop hdigits fun c hc => (hrest c hc).1
  apply ofText_of_pieces (p := .number (c :: digits))
  rw [List.cons_append, pieces, if_neg (isAlpha_ne_true_of_isDigit hc), if_pos hc]
  split
  · next after hslash =>
    rw [hdrop] at hslash
    exact absurd rfl (hrest '/' (hslash ▸ rfl)).2
  · rw [htake, hdrop]

theorem ofText_fraction (hnumerator : IsRun Char.isDigit continuesNumber numerator)
    (hdenominator : ∀ c ∈ denominator, c.isDigit = true)
    (hrest : ∀ c ∈ rest.head?, c.isDigit = false) :
    ofText (numerator ++ '/' :: denominator ++ rest) =
      fraction numerator denominator ++ ofText rest := by
  obtain ⟨c, digits, rfl, hc, hdigits⟩ := hnumerator
  have hslash : ∀ d ∈ ('/' :: (denominator ++ rest)).head?, continuesNumber d = false :=
    fun d hd => Option.some.inj hd ▸ rfl
  obtain ⟨htake, hdrop⟩ := takeWhile_append_of_stop hdigits hslash
  obtain ⟨htake', hdrop'⟩ := takeWhile_append_of_stop hdenominator hrest
  apply ofText_of_pieces (p := .fraction (c :: digits) denominator)
  rw [List.append_assoc, List.cons_append, List.cons_append, pieces,
    if_neg (isAlpha_ne_true_of_isDigit hc), if_pos hc]
  split
  · next after hslash =>
    rw [hdrop] at hslash
    obtain rfl := (List.cons.inj hslash).2
    rw [htake, htake', hdrop']
  · next hnone => exact absurd hdrop (hnone _)

/-- A character that is part of no name or number is escaped. -/
theorem ofText_single (halpha : c.isAlpha = false) (hdigit : c.isDigit = false) :
    ofText (c :: rest) = escape c ++ ofText rest := by
  apply ofText_of_pieces (p := .single c)
  rw [pieces, if_neg (Bool.eq_false_iff.mp halpha), if_neg (Bool.eq_false_iff.mp hdigit)]

theorem ofText_marks {marks : List Char}
    (h : ∀ c ∈ marks, c.isAlpha = false ∧ c.isDigit = false) (rest : List Char) :
    ofText (marks ++ rest) = String.join (marks.map escape) ++ ofText rest := by
  induction marks with
  | nil => rw [List.nil_append, List.map_nil, String.join_nil, String.empty_append]
  | cons c marks ih =>
      rw [List.forall_mem_cons] at h
      rw [List.cons_append, ofText_single h.1.1 h.1.2, ih h.2, List.map_cons, String.join_cons,
        String.append_assoc]

end First

end LinearSystems.Markup
