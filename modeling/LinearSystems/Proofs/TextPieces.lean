import LinearSystems.Text.Basic
import Mathlib.Data.List.TakeWhile

/-!
# Pieces of texts

What a cut does to the pieces of a text: those before it and those after it do not depend on each
other. And if characters of some kind are dropped from the start of a text, then what is left does
not start with another of them.

* `pieces_append`, `pieces_append_cons`: the pieces of a text with a cut are those of its two parts.
* `eq_of_pieces`, `isCut_of_mem_pieces`: the pieces make up the text, and have no cut in them.
* `eq_false_of_mem_head?_dropWhile`: what is left after dropping.
-/

namespace LinearSystems.Text

/-- What is left of a list does not start with what was dropped. -/
theorem eq_false_of_mem_head?_dropWhile {α : Type} {drops : α → Bool} {l : List α} {a : α}
    (h : a ∈ (l.dropWhile drops).head?) : drops a = false := by
  have hnot := List.head?_dropWhile_not drops l
  rwa [show (l.dropWhile drops).head? = some a from h] at hnot

variable {isCut : Char → Bool} {l rest : List Char} {cut : Char}

theorem pieces_eq_singleton (h : ∀ c ∈ l, isCut c = false) : pieces isCut l = [l] := by
  induction l with
  | nil => rfl
  | cons c l ih =>
      rw [List.forall_mem_cons] at h
      rw [pieces, if_neg (Bool.eq_false_iff.mp h.1), ih h.2]

theorem pieces_append (isCut : Char → Bool) (l rest : List Char) (hcut : isCut cut = true) :
    pieces isCut (l ++ cut :: rest) = pieces isCut l ++ pieces isCut rest := by
  induction l with
  | nil =>
      rw [List.nil_append, pieces, pieces, if_pos hcut]
      rfl
  | cons c l ih =>
      rw [List.cons_append, pieces, pieces, ih]
      split
      · rfl
      · cases hl : pieces isCut l with
        | nil => exact absurd hl (pieces_ne_nil isCut l)
        | cons piece more => rfl

/-- The text up to the first cut is the first piece. -/
theorem pieces_append_cons (h : ∀ c ∈ l, isCut c = false) (hcut : isCut cut = true) :
    pieces isCut (l ++ cut :: rest) = l :: pieces isCut rest := by
  rw [pieces_append isCut l rest hcut, pieces_eq_singleton h]
  rfl

/-- A text has no cut, or it has a first one. -/
theorem cut_cases (isCut : Char → Bool) (text : List Char) :
    (∀ c ∈ text, isCut c = false) ∨
      ∃ l cut rest, text = l ++ cut :: rest ∧ (∀ c ∈ l, isCut c = false) ∧ isCut cut = true := by
  induction text with
  | nil => exact Or.inl fun c hc => absurd hc List.not_mem_nil
  | cons c text ih =>
      cases hc : isCut c with
      | true => exact Or.inr ⟨[], c, text, rfl, fun c hc => absurd hc List.not_mem_nil, hc⟩
      | false =>
          rcases ih with hnone | ⟨l, cut, rest, rfl, hl, hcut⟩
          · exact Or.inl (List.forall_mem_cons.mpr ⟨hc, hnone⟩)
          · exact Or.inr ⟨c :: l, cut, rest, rfl, List.forall_mem_cons.mpr ⟨hc, hl⟩, hcut⟩

/-- The pieces of a text, with their cuts, make up the text. -/
theorem eq_of_pieces {sep : Char} {text first : List Char} {more : List (List Char)}
    (h : pieces (· == sep) text = first :: more) : text = first ++ more.flatMap (sep :: ·) := by
  induction text generalizing first more with
  | nil =>
      obtain ⟨rfl, rfl⟩ := List.cons.inj h
      rfl
  | cons c text ih =>
      obtain ⟨piece, pieces', hpieces⟩ :=
        List.exists_cons_of_ne_nil (pieces_ne_nil (· == sep) text)
      rw [pieces, hpieces] at h
      split at h
      · next hc =>
        obtain ⟨rfl, rfl⟩ := List.cons.inj h
        rw [beq_iff_eq.mp hc, ih hpieces, List.nil_append, List.flatMap_cons, List.cons_append]
      · obtain ⟨rfl, rfl⟩ := List.cons.inj h
        rw [ih hpieces, List.cons_append]

/-- There is no cut inside a piece. -/
theorem isCut_of_mem_pieces {text piece : List Char} (h : piece ∈ pieces isCut text) :
    ∀ c ∈ piece, isCut c = false := by
  induction text generalizing piece with
  | nil => simp [List.mem_singleton.mp h]
  | cons c rest ih =>
      rw [pieces] at h
      split at h
      · rcases List.mem_cons.mp h with rfl | h
        · simp
        · exact ih h
      · next hc =>
        split at h
        · simp [List.mem_singleton.mp h, Bool.eq_false_iff.mpr hc]
        · next first more hpieces =>
          rw [hpieces] at ih
          rcases List.mem_cons.mp h with rfl | h
          · exact List.forall_mem_cons.mpr ⟨Bool.eq_false_iff.mpr hc, ih List.mem_cons_self⟩
          · exact ih (List.mem_cons_of_mem _ h)

end LinearSystems.Text
