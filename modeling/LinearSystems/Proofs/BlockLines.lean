import LinearSystems.LinearSystem
import LinearSystems.Proofs.TextPieces
import Mathlib.Data.List.Forall2

/-!
# Blocks of lines

A block is cut at its newlines, and only what is left of a line without the blanks around it
counts. So the lines of two blocks, one after the other, are the lines of the one and of the
other, and it makes no difference whether a line ends with a newline or with a carriage return
and a newline, or whether the last one has an end.

* `Text.trim_append`, `Text.IsTrimmed`: blanks at the ends.
* `Text.endedLines`, `Text.lines_eq_endedLines`: the same lines, by how a line ends.
* `Text.lines_append`: one block after another.
* `Text.IsLine`, `Text.lines_intercalate`: lines that are joined to a block.
* `Input.ofBlock_lines`: the lines of a block.
-/

namespace LinearSystems

namespace Text

/-! ## Blanks at the ends -/

section Trim

variable {text blanks : List Char}

/-- Neither the first nor the last character is a blank. -/
structure IsTrimmed (text : List Char) : Prop where
  head : ∀ c ∈ text.head?, isBlank c = false
  last : ∀ c ∈ text.getLast?, isBlank c = false

theorem dropWhile_isBlank_eq_self (h : ∀ c ∈ text.head?, isBlank c = false) :
    text.dropWhile isBlank = text := by
  cases text with
  | nil => rfl
  | cons c rest => rw [List.dropWhile_cons_of_neg (by simp [h c rfl])]

theorem IsTrimmed.trim_eq (h : IsTrimmed text) : trim text = text := by
  have hlast : text.reverse.dropWhile isBlank = text.reverse :=
    dropWhile_isBlank_eq_self fun c hc => h.last c (by rwa [List.head?_reverse] at hc)
  rw [trim, dropWhile_isBlank_eq_self h.head, hlast, List.reverse_reverse]

/-- Blanks at the end do not count. -/
theorem trim_append (text : List Char) (h : ∀ c ∈ blanks, isBlank c = true) :
    trim (text ++ blanks) = trim text := by
  have hreverse : ∀ c ∈ blanks.reverse, isBlank c = true := fun c hc => h c (List.mem_reverse.mp hc)
  rw [trim, trim, List.dropWhile_append]
  split
  · next hempty =>
    rw [List.isEmpty_iff.mp hempty, List.dropWhile_eq_nil_iff.mpr h]
  · rw [List.reverse_append, List.dropWhile_append_of_pos hreverse]

theorem isTrimmed_trim (text : List Char) : IsTrimmed (trim text) := by
  constructor
  · intro c hc
    -- Dropping the blanks at the end leaves the first character.
    obtain ⟨dropped, hdropped⟩ :=
      List.dropWhile_suffix (l := (text.dropWhile isBlank).reverse) isBlank
    have hsplit : text.dropWhile isBlank = trim text ++ dropped.reverse := by
      rw [trim, ← List.reverse_append, hdropped, List.reverse_reverse]
    have hhead : c ∈ (text.dropWhile isBlank).head? := by
      rw [hsplit, List.head?_append, show (trim text).head? = some c from hc]
      rfl
    exact eq_false_of_mem_head?_dropWhile hhead
  · intro c hc
    rw [trim, List.getLast?_reverse] at hc
    exact eq_false_of_mem_head?_dropWhile hc

theorem mem_of_mem_trim {c : Char} (h : c ∈ trim text) : c ∈ text := by
  rw [trim, List.mem_reverse] at h
  have hmem := (List.dropWhile_suffix isBlank).mem h
  exact (List.dropWhile_suffix isBlank).mem (List.mem_reverse.mp hmem)

end Trim

/-! ## Pieces that count -/

/-- The texts that are left of some pieces without the blanks around them. -/
def trimmedTexts (pieces : List (List Char)) : List String :=
  ((pieces.map trim).filter (fun line => !line.isEmpty)).map String.ofList

theorem trimmedTexts_append (l l' : List (List Char)) :
    trimmedTexts (l ++ l') = trimmedTexts l ++ trimmedTexts l' := by
  simp [trimmedTexts]

theorem lines_eq (block : String) :
    lines block = trimmedTexts (pieces (· == '\n') block.toList) := rfl

/-- The lines of one block after another. -/
theorem lines_append (a b : String) : lines (a ++ "\n" ++ b) = lines a ++ lines b := by
  have hblock : (a ++ "\n" ++ b).toList = a.toList ++ '\n' :: b.toList := by simp
  rw [lines_eq, hblock, pieces_append (· == '\n') a.toList b.toList (beq_self_eq_true '\n'),
    trimmedTexts_append]
  rfl

/-! ## Ends of lines -/

/-- The lines of a text without their ends. A line ends with a newline, or with a carriage return
and a newline; the last one can do without. A carriage return alone ends no line. -/
def endedLines : List Char → List (List Char)
  | [] => []
  | '\n' :: rest => [] :: endedLines rest
  | '\r' :: '\n' :: rest => [] :: endedLines rest
  | c :: rest =>
    match endedLines rest with
    | [] => [[c]]
    | line :: more => (c :: line) :: more

theorem eq_nil_of_endedLines {text : List Char} (h : endedLines text = []) : text = [] := by
  unfold endedLines at h
  split at h
  · rfl
  · cases h
  · cases h
  · split at h
    · cases h
    · cases h

/-- The piece is the line, perhaps with a carriage return behind it. -/
def IsEnded (piece line : List Char) : Prop := piece = line ∨ piece = line ++ ['\r']

/-- Between the newlines of a text are its lines, and after the last newline there may be an empty
piece that is no line. -/
theorem exists_forall₂_isEnded (text : List Char) : ∃ tail, (tail = [] ∨ tail = [[]]) ∧
    List.Forall₂ IsEnded (pieces (· == '\n') text) (endedLines text ++ tail) := by
  induction text using endedLines.induct with
  | case1 => exact ⟨[[]], Or.inr rfl, .cons (Or.inl rfl) .nil⟩
  | case2 rest ih =>
      obtain ⟨tail, htail, hlines⟩ := ih
      exact ⟨tail, htail, .cons (Or.inl rfl) hlines⟩
  | case3 rest ih =>
      obtain ⟨tail, htail, hlines⟩ := ih
      exact ⟨tail, htail, .cons (Or.inr rfl) hlines⟩
  | case4 c rest hnewline hreturn hnil _ =>
      obtain rfl := eq_nil_of_endedLines hnil
      have hpieces : pieces (· == '\n') [c] = [[c]] :=
        pieces_eq_singleton (by simpa using hnewline)
      rw [endedLines, hpieces]
      · exact ⟨[], Or.inl rfl, .cons (Or.inl rfl) .nil⟩
      · exact hnewline
      · exact hreturn
  | case5 c rest hnewline hreturn line more hlines ih =>
      obtain ⟨tail, htail, hrest⟩ := ih
      rw [hlines] at hrest
      obtain ⟨piece, others, hpiece, hothers, hpieces⟩ := List.forall₂_cons_right_iff.mp hrest
      rw [endedLines, hlines, pieces, if_neg (by simpa using hnewline), hpieces]
      · refine ⟨tail, htail, .cons ?_ hothers⟩
        rcases hpiece with rfl | rfl
        · exact Or.inl rfl
        · exact Or.inr rfl
      · exact hnewline
      · exact hreturn

/-- The lines that count are the same, whichever way they are taken from a block. -/
theorem lines_eq_endedLines (block : String) :
    lines block = trimmedTexts (endedLines block.toList) := by
  obtain ⟨tail, htail, hlines⟩ := exists_forall₂_isEnded block.toList
  have htrim : ∀ piece line, IsEnded piece line → trim piece = trim line := by
    rintro piece line (rfl | rfl)
    · rfl
    · exact trim_append line (by simp [isBlank])
  have hmap : (pieces (· == '\n') block.toList).map trim =
      (endedLines block.toList ++ tail).map trim := by
    have hsame := hlines.imp htrim
    rwa [← List.forall₂_map_right_iff, ← List.forall₂_map_left_iff, List.forall₂_eq_eq_eq] at hsame
  have hnone : trimmedTexts tail = [] := by
    rcases htail with rfl | rfl
    · rfl
    · rfl
  rw [lines_eq, trimmedTexts, hmap, ← trimmedTexts, trimmedTexts_append, hnone, List.append_nil]

/-! ## Single lines -/

/-- A line as it is taken from a block: not empty, without a newline in it and without a blank at
either end. -/
structure IsLine (line : String) : Prop where
  ne_empty : line ≠ ""
  newline_notMem : '\n' ∉ line.toList
  isTrimmed : IsTrimmed line.toList

theorem isLine_of_mem_lines {block line : String} (h : line ∈ lines block) : IsLine line := by
  obtain ⟨trimmed, hmem, rfl⟩ := List.mem_map.mp h
  obtain ⟨hmem, hne⟩ := List.mem_filter.mp hmem
  obtain ⟨piece, hpiece, rfl⟩ := List.mem_map.mp hmem
  refine ⟨?_, ?_, ?_⟩
  · intro hempty
    have hnil := congrArg String.toList hempty
    rw [String.toList_ofList] at hnil
    rw [hnil] at hne
    cases hne
  · rw [String.toList_ofList]
    intro hnewline
    have hcut := isCut_of_mem_pieces hpiece '\n' (mem_of_mem_trim hnewline)
    cases hcut
  · rw [String.toList_ofList]
    exact isTrimmed_trim piece

/-- A line is itself the only one, whatever blanks stand behind it. -/
theorem IsLine.lines_append {line : String} (h : IsLine line) {blanks : String}
    (hblank : ∀ c ∈ blanks.toList, isBlank c = true) (hnewline : '\n' ∉ blanks.toList) :
    lines (line ++ blanks) = [line] := by
  have hnone : ∀ c ∈ line.toList ++ blanks.toList, (c == '\n') = false := by
    intro c hc
    apply beq_eq_false_iff_ne.mpr
    rintro rfl
    exact (List.mem_append.mp hc).elim h.newline_notMem hnewline
  have hne : line.toList.isEmpty = false := by
    simpa using h.ne_empty
  rw [lines_eq, String.toList_append, pieces_eq_singleton hnone, trimmedTexts, List.map_singleton,
    trim_append _ hblank, h.isTrimmed.trim_eq, List.filter_cons_of_pos (by simp [hne])]
  exact congrArg (fun l => [l]) String.ofList_toList

theorem lines_empty : lines "" = [] := rfl

/-- Lines that are joined to a block are the lines of the block. -/
theorem lines_intercalate {separator : String} (hseparator : separator = "\n" ∨ separator = "\r\n")
    {list : List String} (h : ∀ line ∈ list, IsLine line) :
    lines (separator.intercalate list) = list := by
  obtain ⟨blanks, rfl, hblank, hnewline⟩ : ∃ blanks : String, separator = blanks ++ "\n" ∧
      (∀ c ∈ blanks.toList, isBlank c = true) ∧ '\n' ∉ blanks.toList := by
    rcases hseparator with rfl | rfl
    · exact ⟨"", rfl, by simp, by simp⟩
    · exact ⟨"\r", rfl, by simp [isBlank], by simp⟩
  induction list with
  | nil => rw [String.intercalate_nil, lines_empty]
  | cons line rest ih =>
      rw [List.forall_mem_cons] at h
      cases rest with
      | nil =>
          have hline := @IsLine.lines_append line h.1 "" (by simp) (by simp)
          rwa [String.append_empty] at hline
      | cons next rest =>
          rw [String.intercalate_cons_cons, ← String.append_assoc, lines_append,
            h.1.lines_append hblank hnewline, ih h.2]
          rfl

end Text

namespace Input

open Text

/-- **A block is the lines of its parts.** The lines of a block are those that end with a newline,
or a carriage return and a newline, without the blanks around them and without those that have
nothing else. The lines of two blocks with a newline between them are the lines of the first block
and those of the second one; none of them is empty, has a newline in it, or a blank at one of its
ends; and joined to a block again, with either end, they are the same. -/
theorem ofBlock_lines (a b : String) : ∃ list more,
    ofBlock a = .text list ∧ ofBlock b = .text more ∧
    ofBlock (a ++ "\n" ++ b) = .text (list ++ more) ∧
    list = trimmedTexts (endedLines a.toList) ∧
    (∀ line ∈ list, IsLine line) ∧
    ofBlock ("\n".intercalate list) = .text list ∧
    ofBlock ("\r\n".intercalate list) = .text list := by
  have hlines : ∀ line ∈ lines a, IsLine line := fun line => isLine_of_mem_lines
  refine ⟨lines a, lines b, rfl, rfl, ?_, lines_eq_endedLines a, hlines, ?_, ?_⟩
  · exact congrArg text (lines_append a b)
  · exact congrArg text (lines_intercalate (Or.inl rfl) hlines)
  · exact congrArg text (lines_intercalate (Or.inr rfl) hlines)

/-- A carriage return only ends a line together with a newline, but it is a blank at any end. -/
example : ofBlock " x = 1\r\n\r\n\ry\r= 2\r" = .text ["x = 1", "y\r= 2"] := by
  decide +kernel

end Input

end LinearSystems
