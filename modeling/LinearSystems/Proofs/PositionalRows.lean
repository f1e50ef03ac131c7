import LinearSystems.Proofs.NamedColumns
import LinearSystems.Proofs.TableSums
import LinearSystems.Proofs.Traversals

/-!
# Rows of coefficients

Rows of numbers are given without names, so the unknowns get the letters of the alphabet in the
order of their places. Since the letters are in the order of names as well, the columns of the
matrix are the places again, and the matrix is made of the rows as they were given. Rows are
refused if there are none, if one is longer than another, if they have no place for an unknown,
or more places than letters.

* `letterAt`, `firstLetters`: the names of the unknowns, by their codes.
* `Table.ofRow`: the table that says the same as a row.
* `Equation.ofRow_eq_ok_iff`, `Input.equations_rows_eq_ok_iff`: the rows that are equations.
* `LinearSystem.ofInput_rows`: the systems that rows make up.
-/

namespace LinearSystems

/-! ## Letters -/

/-- The letter in a place of the alphabet, counted from zero. -/
def letterAt (i : Nat) : String := String.singleton (Char.ofNat ('a'.toNat + i))

def firstLetters (n : Nat) : List String := (List.range n).map letterAt

@[simp] theorem length_firstLetters (n : Nat) : (firstLetters n).length = n := by
  simp [firstLetters]

theorem letters_eq : Equation.letters = firstLetters positionalLimit := by
  decide +kernel

theorem firstLetters_eq_take {n : Nat} (h : n ≤ positionalLimit) :
    firstLetters n = Equation.letters.take n := by
  rw [letters_eq, firstLetters, firstLetters, ← List.map_take, List.take_range, Nat.min_eq_left h]

theorem firstLetters_sorted {n : Nat} (h : n ≤ positionalLimit) :
    (firstLetters n).Pairwise (fun a b => Key.before a b = true) := by
  have hall : Equation.letters.Pairwise (fun a b => Key.before a b = true) := by decide +kernel
  rw [firstLetters_eq_take h]
  exact hall.sublist (List.take_sublist n _)

theorem letters_zip {coefficients : List Rat} (h : coefficients.length ≤ positionalLimit) :
    Equation.letters.zip coefficients =
      (firstLetters coefficients.length).zip coefficients := by
  have hmin : min Equation.letters.length coefficients.length = coefficients.length := by
    rw [letters_eq, length_firstLetters, Nat.min_eq_right h]
  rw [firstLetters_eq_take h, List.zip_eq_zip_take_min, hmin, List.take_length]

theorem zip_sorted {κ : Type} [Key κ] {keys : List κ} {l : List Rat}
    (hsorted : keys.Pairwise (fun a b => Key.before a b = true)) (h : keys.length ≤ l.length) :
    (keys.zip l).Pairwise (fun a b => Key.before a.1 b.1 = true) := by
  rw [← List.map_fst_zip h] at hsorted
  exact List.pairwise_map.mp hsorted

/-! ## Equations -/

/-- The table with the entries of a row for the letters in their places, and the last entry for the
constant. -/
def Table.ofRow (row : List Rat) : Table Symbol :=
  Table.ofList (((firstLetters (row.length - 1)).map Symbol.unknown ++ [Symbol.constant]).zip row)

namespace Equation

/-- The equation with a coefficient for each of the first letters. -/
def ofPlaces (coefficients : List Rat) (value : Rat) : Equation where
  coefficients := Table.ofList ((firstLetters coefficients.length).zip coefficients)
  value := value

theorem ofRow_eq_ok_iff {row : List Rat} {e : Equation} :
    ofRow row = .ok e ↔ ∃ coefficients value, row = coefficients ++ [value] ∧
      coefficients.length ≤ positionalLimit ∧ ofPlaces coefficients value = e := by
  rcases List.eq_nil_or_concat row with rfl | ⟨coefficients, value, rfl⟩
  · simp [ofRow]
  · rw [List.concat_eq_append, ofRow, List.getLast?_concat]
    simp only [List.dropLast_concat]
    split
    · next hlong =>
      constructor
      · intro h
        cases h
      · rintro ⟨own, last, hrow, hroom, -⟩
        obtain ⟨rfl, -⟩ := List.append_inj' hrow rfl
        exact absurd hroom (Nat.not_le_of_lt hlong)
    · next hroom =>
      have hroom : coefficients.length ≤ positionalLimit := Nat.le_of_not_lt hroom
      rw [letters_zip hroom]
      constructor
      · intro h
        exact ⟨coefficients, value, rfl, hroom, Except.ok.inj h⟩
      · rintro ⟨own, last, hrow, -, rfl⟩
        obtain ⟨rfl, hlast⟩ := List.append_inj' hrow rfl
        obtain rfl := List.singleton_inj.mp hlast
        rfl

theorem exists_of_ofRow_eq_error {row : List Rat} {error : Error} (h : ofRow row = .error error) :
    ∃ cause, error = .dimension cause := by
  rw [ofRow] at h
  split at h
  · cases h
    exact ⟨_, rfl⟩
  · simp only at h
    split at h
    · cases h
      exact ⟨_, rfl⟩
    · cases h

section Places

variable {coefficients : List Rat} (value : Rat) (h : coefficients.length ≤ positionalLimit)

include h

theorem entries_ofPlaces : (ofPlaces coefficients value).coefficients.entries =
    (firstLetters coefficients.length).zip coefficients :=
  Table.entries_ofList (zip_sorted (firstLetters_sorted h) (length_firstLetters _).le)

theorem unknowns_ofPlaces :
    (ofPlaces coefficients value).unknowns = firstLetters coefficients.length := by
  rw [unknowns, Table.keys, entries_ofPlaces value h, List.map_fst_zip (length_firstLetters _).le]

theorem coefficient_ofPlaces {i : Nat} (hi : i < coefficients.length) :
    (ofPlaces coefficients value).coefficient (letterAt i) = coefficients[i] := by
  have hmem : (letterAt i, coefficients[i]) ∈
      (firstLetters coefficients.length).zip coefficients := by
    apply List.mem_iff_getElem.mpr
    exact ⟨i, by simpa using hi, by simp [firstLetters]⟩
  rw [← entries_ofPlaces value h, ← Table.find?_eq_some_iff] at hmem
  rw [coefficient, Table.coefficient, hmem, Option.getD_some]

/-- The row of the equation is the row that it is made of. -/
theorem entries_rowOf_ofPlaces :
    (LinearSystem.rowOf (firstLetters coefficients.length) (ofPlaces coefficients value)).entries =
      coefficients ++ [value] := by
  have hcoefficients : (LinearSystem.rowOf (firstLetters coefficients.length)
      (ofPlaces coefficients value)).coefficients.toList = coefficients := by
    apply List.ext_getElem
    · simp
    · intro i hi hi'
      simp [LinearSystem.rowOf, firstLetters, coefficient_ofPlaces value h hi']
  rw [Row.entries, hcoefficients]
  rfl

theorem entries_ofRow : (Table.ofRow (coefficients ++ [value])).entries =
    (.constant, value) ::
      ((firstLetters coefficients.length).map Symbol.unknown).zip coefficients := by
  have hlength : (coefficients ++ [value]).length - 1 = coefficients.length := by simp
  have hpairs : ((firstLetters coefficients.length).map Symbol.unknown ++ [Symbol.constant]).zip
        (coefficients ++ [value]) =
      ((firstLetters coefficients.length).map Symbol.unknown).zip coefficients ++
        [(.constant, value)] := by
    rw [List.zip_append (by simp)]
    rfl
  have hsorted : (((firstLetters coefficients.length).map Symbol.unknown).zip coefficients).Pairwise
      (fun a b => Key.before a.1 b.1 = true) :=
    zip_sorted (List.pairwise_map.mpr (firstLetters_sorted h)) (by simp)
  rw [Table.ofRow, hlength, hpairs, Table.ofList, List.foldl_append, ← Table.ofList]
  show Table.alterEntries _ _ (Table.ofList _).entries = _
  rw [Table.entries_ofList hsorted, Table.alterEntries_eq_cons]
  intro e he
  obtain ⟨name, -, hname⟩ := List.mem_map.mp (List.of_mem_zip (a := e.1) (b := e.2) he).1
  rw [← hname]
  rfl

/-- The table of a row says the same as the row. -/
theorem ofTable_ofRow :
    ofTable (Table.ofRow (coefficients ++ [value])) = ofPlaces coefficients value := by
  rw [ofTable, Table.coefficient, Table.find?, entries_ofRow value h, List.lookup_cons_self,
    List.filterMap_cons_none rfl, List.zip_map_left, List.filterMap_map]
  -- What is left of `ofTable` takes the names of the letters back.
  exact congrArg (fun entries => Equation.mk (Table.ofList entries) value) List.filterMap_some

end Places

/-- The equation of a row with `n` places for coefficients. -/
def IsPositional (n : Nat) (row : List Rat) (e : Equation) : Prop :=
  ∃ coefficients value, row = coefficients ++ [value] ∧ coefficients.length = n ∧
    ofPlaces coefficients value = e

theorem isPositional_iff {n : Nat} (h : n ≤ positionalLimit) {row : List Rat} {e : Equation} :
    IsPositional n row e ↔ row.length = n + 1 ∧ ofRow row = .ok e := by
  rw [ofRow_eq_ok_iff]
  constructor
  · rintro ⟨coefficients, value, rfl, rfl, he⟩
    exact ⟨by simp, coefficients, value, rfl, h, he⟩
  · rintro ⟨hlength, coefficients, value, rfl, -, he⟩
    exact ⟨coefficients, value, rfl, by simpa using hlength, he⟩

end Equation

/-! ## Lists of rows -/

section Rows

variable {rows : List (List Rat)} {es : List Equation} {n : Nat}

theorem unevenRow?_eq_none_iff {first : List Rat} :
    Input.unevenRow? (first :: rows) = none ↔ ∀ row ∈ first :: rows, row.length = first.length := by
  have hmem : ∀ row : List Rat, row ∈ first :: rows ↔
      ∃ e ∈ (first :: rows).zipIdx 1, e.1 = row := by
    intro row
    rw [← List.mem_map, List.zipIdx_map_fst]
  simp only [Input.unevenRow?, List.find?_eq_none, hmem, bne_iff_ne, ne_eq, not_not]
  constructor
  · rintro h row ⟨e, he, rfl⟩
    exact h e he
  · intro h e he
    exact h e.1 ⟨e, he, rfl⟩

theorem checkRows_eq_ok_iff :
    Input.checkRows rows = .ok () ↔ rows ≠ [] ∧ ∃ n, ∀ row ∈ rows, row.length = n := by
  cases rows with
  | nil => simp [Input.checkRows]
  | cons first rest =>
      have hcheck : Input.checkRows (first :: rest) = .ok () ↔
          Input.unevenRow? (first :: rest) = none := by
        unfold Input.checkRows
        cases Input.unevenRow? (first :: rest) <;> simp
      rw [hcheck, unevenRow?_eq_none_iff]
      constructor
      · intro h
        exact ⟨List.cons_ne_nil _ _, first.length, h⟩
      · rintro ⟨-, n, h⟩ row hrow
        rw [h row hrow, h first List.mem_cons_self]

theorem exists_of_checkRows_eq_error {error : Error} (h : Input.checkRows rows = .error error) :
    ∃ cause, error = .dimension cause := by
  unfold Input.checkRows at h
  split at h
  · cases h
    exact ⟨_, rfl⟩
  · cases h
    exact ⟨_, rfl⟩
  · cases h

/-- Rows of one length are equations with as many places for coefficients. -/
theorem forall₂_isPositional_iff (h : n ≤ positionalLimit) :
    List.Forall₂ (Equation.IsPositional n) rows es ↔
      (∀ row ∈ rows, row.length = n + 1) ∧ rows.mapM Equation.ofRow = .ok es := by
  rw [mapM_eq_ok_iff, ← List.forall₂_and_left]
  refine iff_of_eq (congrArg (List.Forall₂ · rows es) ?_)
  funext row e
  exact propext (Equation.isPositional_iff h)

/-- Rows are equations if there are any, all of one length, and not longer than the letters. -/
theorem Input.equations_rows_eq_ok_iff : (Input.rows rows).equations = .ok es ↔
    rows ≠ [] ∧ ∃ n ≤ positionalLimit, List.Forall₂ (Equation.IsPositional n) rows es := by
  rw [equations, bind_eq_ok_iff]
  constructor
  · rintro ⟨⟨⟩, hcheck, hread⟩
    obtain ⟨hne, length, hlength⟩ := checkRows_eq_ok_iff.mp hcheck
    obtain ⟨first, rest, rfl⟩ := List.exists_cons_of_ne_nil hne
    -- The first row has a last entry, so all rows do.
    obtain ⟨e, -, hfirst, -⟩ := List.forall₂_cons_left_iff.mp (mapM_eq_ok_iff.mp hread)
    obtain ⟨coefficients, value, rfl, hroom, -⟩ := Equation.ofRow_eq_ok_iff.mp hfirst
    have hall := hlength _ List.mem_cons_self
    rw [List.length_append, List.length_singleton] at hall
    exact ⟨hne, _, hroom, (forall₂_isPositional_iff hroom).mpr ⟨hall ▸ hlength, hread⟩⟩
  · rintro ⟨hne, n, hroom, hall⟩
    obtain ⟨hlength, hread⟩ := (forall₂_isPositional_iff hroom).mp hall
    exact ⟨(), checkRows_eq_ok_iff.mpr ⟨hne, n + 1, hlength⟩, hread⟩

theorem Input.exists_of_equations_rows_eq_error {error : Error}
    (h : (Input.rows rows).equations = .error error) : ∃ cause, error = .dimension cause := by
  rw [equations] at h
  cases hcheck : Input.checkRows rows with
  | error error' =>
      rw [hcheck] at h
      cases h
      exact exists_of_checkRows_eq_error hcheck
  | ok =>
      rw [hcheck] at h
      obtain ⟨row, -, hrow⟩ := exists_mem_of_mapM_eq_error h
      exact Equation.exists_of_ofRow_eq_error hrow

/-! ## What the equations of rows say -/

variable (hroom : n ≤ positionalLimit) (hall : List.Forall₂ (Equation.IsPositional n) rows es)

include hroom hall

theorem unknownsOf_positional (hne : rows ≠ []) : unknownsOf es = firstLetters n := by
  apply sortedKeys_eq_of_sorted (firstLetters_sorted hroom)
  have hunknowns : ∀ e ∈ es, e.unknowns = firstLetters n := by
    intro e he
    obtain ⟨row, -, coefficients, value, -, rfl, rfl⟩ := exists_mem_of_forall₂ hall he
    exact Equation.unknowns_ofPlaces value hroom
  obtain ⟨e, hmem⟩ : ∃ e, e ∈ es := by
    apply List.exists_mem_of_ne_nil
    rintro rfl
    exact hne (List.forall₂_nil_right_iff.mp hall)
  intro name
  rw [List.mem_flatMap]
  constructor
  · rintro ⟨e, he, hname⟩
    rwa [hunknowns e he] at hname
  · intro hname
    exact ⟨e, hmem, by rwa [hunknowns e hmem]⟩

theorem entries_matrixOver_positional :
    (LinearSystem.matrixOver (firstLetters n) es).entries = rows := by
  induction hall with
  | nil => rfl
  | @cons row e rows es he _ ih =>
      obtain ⟨coefficients, value, rfl, rfl, rfl⟩ := he
      have hrow := Equation.entries_rowOf_ofPlaces value hroom
      exact congrArg₂ List.cons hrow ih

theorem map_ofTable_positional : (rows.map Table.ofRow).map Equation.ofTable = es := by
  induction hall with
  | nil => rfl
  | @cons row e rows es he _ ih =>
      obtain ⟨coefficients, value, rfl, rfl, rfl⟩ := he
      exact congrArg₂ List.cons (Equation.ofTable_ofRow value hroom) ih

end Rows

/-! ## Systems -/

namespace LinearSystem

theorem entries_matrix {s : LinearSystem} {names : List String} (h : s.unknowns = names) :
    s.matrix.entries = (matrixOver names s.equations).entries := by
  subst h
  rfl

/-- Rows make up a system if they are equations and have a place for an unknown. -/
theorem ofInput_rows_eq_ok_iff {rows : List (List Rat)} {s : LinearSystem} :
    ofInput (.rows rows) = .ok s ↔ rows ≠ [] ∧ ∃ n ≤ positionalLimit,
      List.Forall₂ (Equation.IsPositional n) rows s.equations := by
  rw [ofInput, bind_eq_ok_iff]
  simp only [ofEquations_eq_ok_iff, exists_eq_right', Input.equations_rows_eq_ok_iff]

/-- Rows with a place for an unknown, and with letters for all of them, make up a system. -/
theorem exists_ofInput_rows {rows : List (List Rat)} (hne : rows ≠ []) {n : Nat} (hpos : 0 < n)
    (hroom : n ≤ positionalLimit) (hlength : ∀ row ∈ rows, row.length = n + 1) :
    ∃ s, ofInput (.rows rows) = .ok s := by
  have hrow : ∀ row ∈ rows, ∃ e, Equation.ofRow row = .ok e ∧ row.length = n + 1 := by
    intro row hrow
    have hnonempty : row ≠ [] := List.ne_nil_of_length_eq_add_one (hlength row hrow)
    obtain ⟨coefficients, value, rfl⟩ := (List.eq_nil_or_concat' row).resolve_left hnonempty
    have hcount := hlength _ hrow
    rw [List.length_append, List.length_singleton, Nat.add_right_cancel_iff] at hcount
    exact ⟨_, Equation.ofRow_eq_ok_iff.mpr ⟨_, _, rfl, hcount ▸ hroom, rfl⟩, hlength _ hrow⟩
  obtain ⟨es, hread, -⟩ := exists_mapM_eq_ok hrow
  have hall := (forall₂_isPositional_iff hroom).mpr ⟨hlength, hread⟩
  have hunknowns : unknownsOf es ≠ [] := by
    rw [unknownsOf_positional hroom hall hne]
    exact List.ne_nil_of_length_pos (by rwa [length_firstLetters])
  have hes : es ≠ [] := by
    rintro rfl
    exact hunknowns rfl
  exact ⟨⟨es, hes, hunknowns⟩, ofInput_rows_eq_ok_iff.mpr ⟨hne, n, hroom, hall⟩⟩

theorem exists_of_ofInput_rows_eq_error {rows : List (List Rat)} {error : Error}
    (h : ofInput (.rows rows) = .error error) : ∃ cause, error = .dimension cause := by
  rw [ofInput] at h
  cases hequations : (Input.rows rows).equations with
  | error error' =>
      rw [hequations] at h
      cases h
      exact Input.exists_of_equations_rows_eq_error hequations
  | ok es =>
      rw [hequations] at h
      rcases ofEquations_eq_error_iff.mp h with ⟨-, rfl⟩ | ⟨-, -, rfl⟩
      · exact ⟨_, rfl⟩
      · exact ⟨_, rfl⟩

/-- **Rows are taken literally.** Rows make up a system if there are any and all have the same
length, with a constant and one to twenty-six coefficients, and else there is an error of
dimension. The unknowns of the system are the first letters, its matrix is made of the rows as
they are, and it is the system of the tables that have the entries of a row for the letters in
their places, and the last one for the constant. -/
theorem ofInput_rows (rows : List (List Rat)) :
    ((∃ s, ofInput (.rows rows) = .ok s) ↔
      rows ≠ [] ∧ ∃ length, 2 ≤ length ∧ length ≤ 27 ∧ ∀ row ∈ rows, row.length = length) ∧
    ((∃ s, ofInput (.rows rows) = .ok s) ∨
      ∃ cause, ofInput (.rows rows) = .error (.dimension cause)) ∧
    ∀ s, ofInput (.rows rows) = .ok s →
      (∀ row ∈ rows, s.unknowns = firstLetters (row.length - 1)) ∧
      s.matrix.entries = rows ∧
      ofInput (.tables (rows.map Table.ofRow)) = .ok s := by
  refine ⟨⟨?_, ?_⟩, ?_, ?_⟩
  · rintro ⟨s, hs⟩
    obtain ⟨hne, n, hroom, hall⟩ := ofInput_rows_eq_ok_iff.mp hs
    have hpos : n ≠ 0 := by
      rintro rfl
      exact s.unknowns_ne_nil (unknownsOf_positional hroom hall hne)
    have hlimit : n ≤ 26 := hroom
    exact ⟨hne, n + 1, by omega, by omega, ((forall₂_isPositional_iff hroom).mp hall).1⟩
  · rintro ⟨hne, length, htwo, hmost, hlength⟩
    obtain ⟨n, rfl⟩ : ∃ n, length = n + 1 := ⟨length - 1, by omega⟩
    exact exists_ofInput_rows hne (by omega) (Nat.le_of_succ_le_succ hmost) hlength
  · cases hinput : ofInput (.rows rows) with
    | ok s => exact Or.inl ⟨s, rfl⟩
    | error error =>
        obtain ⟨cause, rfl⟩ := exists_of_ofInput_rows_eq_error hinput
        exact Or.inr ⟨cause, rfl⟩
  · intro s hs
    obtain ⟨hne, n, hroom, hall⟩ := ofInput_rows_eq_ok_iff.mp hs
    have hunknowns : s.unknowns = firstLetters n := unknownsOf_positional hroom hall hne
    refine ⟨fun row hrow => ?_, ?_, ?_⟩
    · rw [((forall₂_isPositional_iff hroom).mp hall).1 row hrow, Nat.add_sub_cancel, hunknowns]
    · rw [entries_matrix hunknowns, entries_matrixOver_positional hroom hall]
    · rw [ofInput, Input.equations, map_ofTable_positional hroom hall]
      exact ofEquations_eq_ok_iff.mpr rfl

end LinearSystem

end LinearSystems
