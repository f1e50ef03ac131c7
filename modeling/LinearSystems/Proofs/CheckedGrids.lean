import LinearSystems.Checked.Grid
import LinearSystems.Proofs.CheckedNumbers
import LinearSystems.Proofs.NormalEquations

/-!
# Grids of rows

A grid stores an augmented matrix if its rows are the entries of the rows of the matrix. Then all
rows are equally long, and no place that is asked for is outside of it. Loops over the places of a
list go from the front to the back: what was visited is in front, and the place that is next is
the length of the front.

* `gridOf`: the grid of a list of rows, with lemmas for its rows and entries.
* `foldlM_range_replace`, `anyM_range`: loops over places as maps over lists.
* `fill_eq_gridOf`: a grid that is filled entry by entry.
* `normalEquations_gridOf`: the normal equations.
-/

namespace LinearSystems

/-! ## Entries of rows -/

namespace Row

variable {n : Nat}

@[simp] theorem length_entries (r : Row n) : r.entries.length = n + 1 := by simp [entries]

theorem getElem?_entries (r : Row n) (c : Fin n) : r.entries[c.val]? = some (r.coefficient c) := by
  rw [entries, List.getElem?_append_left (by simp)]
  simp [coefficient]

theorem getElem?_entries_last (r : Row n) : r.entries[n]? = some r.constant := by
  simp [entries]

theorem entries_scaled (r : Row n) (q : Rat) : (r.scaled q).entries = r.entries.map (· * q) := by
  simp [entries, scaled, Vector.toList_map]

theorem entries_minus (r p : Row n) (q : Rat) :
    (r.minus q p).entries = r.entries.zipWith (fun x y => x - q * y) p.entries := by
  simp [entries, minus, List.zipWith_append]

theorem entries_zero (n : Nat) : (zero n).entries = List.replicate (n + 1) 0 := by
  simp [entries, zero, List.replicate_succ']

/-- An entry is a coefficient, or the constant. -/
theorem getElem?_entries_cases {r : Row n} {j : Nat} {q : Rat} (h : r.entries[j]? = some q) :
    (∃ c : Fin n, j = c.val ∧ q = r.coefficient c) ∨ j = n ∧ q = r.constant := by
  have hj : j < n + 1 := by
    obtain ⟨hj, -⟩ := List.getElem?_eq_some_iff.mp h
    rwa [length_entries] at hj
  rcases Nat.lt_succ_iff_lt_or_eq.mp hj with hlt | rfl
  · rw [r.getElem?_entries ⟨j, hlt⟩] at h
    exact Or.inl ⟨⟨j, hlt⟩, rfl, (Option.some.inj h).symm⟩
  · rw [getElem?_entries_last] at h
    exact Or.inr ⟨rfl, (Option.some.inj h).symm⟩

end Row

namespace Checked

/-! ## Loops -/

section Loops

variable {α σ : Type}

/-- A loop that replaces one element after the other, each by what its place and the element
itself say, is a map. -/
theorem foldlM_range_replace (view : List α → σ) (f : Nat → α → α)
    (step : σ → Nat → Except Fault σ) (l : List α)
    (h : ∀ front a back, front.length < l.length →
      step (view (front ++ a :: back)) front.length =
        .ok (view (front ++ f front.length a :: back))) :
    (List.range l.length).foldlM step (view l) = .ok (view (l.mapIdx f)) := by
  suffices hrest : ∀ back front : List α, front.length + back.length = l.length →
      (List.range' front.length back.length).foldlM step (view (front ++ back)) =
        .ok (view (front ++ back.mapIdx fun i => f (front.length + i))) by
    simpa [List.range_eq_range'] using hrest l [] (by simp)
  intro back
  induction back with
  | nil => intro front _; rfl
  | cons a back ih =>
      intro front hlength
      rw [List.length_cons] at hlength
      have hnext := ih (front ++ [f front.length a]) (by simp; omega)
      rw [List.length_append, List.length_singleton, ← List.append_cons] at hnext
      rw [List.length_cons, List.range'_succ, List.foldlM_cons, h front a back (by omega)]
      simp only [bind, Except.bind, hnext]
      simp [List.mapIdx_cons, Nat.add_assoc, Nat.add_comm 1]

/-- A loop commutes with a map of states if its steps do. -/
theorem foldlM_map_state {β γ : Type} {view : β → γ} {step : β → α → Except Fault β}
    {step' : γ → α → Except Fault γ} (h : ∀ s a, step' (view s) a = (step s a).map view)
    (l : List α) (s : β) : l.foldlM step' (view s) = (l.foldlM step s).map view := by
  induction l generalizing s with
  | nil => rfl
  | cons a l ih =>
      rw [List.foldlM_cons, List.foldlM_cons, h]
      cases step s a with
      | error fault => rfl
      | ok next => exact ih next

variable {test : Nat → Except Fault Bool} {p : α → Bool}

/-- A search over the places from the end of the front on is a search in the back. -/
theorem findM?_range' (front back : List α)
    (h : ∀ front' a back', front' ++ a :: back' = front ++ back → test front'.length = .ok (p a)) :
    (List.range' front.length back.length).findM? test =
      .ok ((back.findIdx? p).map (front.length + ·)) := by
  induction back generalizing front with
  | nil => rfl
  | cons a back ih =>
      have hnext := ih (front ++ [a]) fun front' a' back' hsplit =>
        h front' a' back' (by rw [hsplit, ← List.append_cons])
      rw [List.length_append, List.length_singleton] at hnext
      rw [List.length_cons, List.range'_succ, List.findM?, h front a back rfl, List.findIdx?_cons]
      cases p a with
      | true => rfl
      | false =>
          simp only [bind, Except.bind, hnext]
          simp [Function.comp_def, Nat.add_comm 1, Nat.add_assoc]

/-- A test of all places is one of all elements. -/
theorem anyM_range {l : List α}
    (h : ∀ front a back, front ++ a :: back = l → test front.length = .ok (p a)) :
    (List.range l.length).anyM test = .ok (l.any p) := by
  suffices hrest : ∀ back front : List α, front ++ back = l →
      (List.range' front.length back.length).anyM test = .ok (back.any p) by
    rw [List.range_eq_range']
    exact hrest l [] rfl
  intro back
  induction back with
  | nil => intro front _; rfl
  | cons a back ih =>
      intro front hsplit
      have hnext := ih (front ++ [a]) (by rw [← List.append_cons, hsplit])
      rw [List.length_append, List.length_singleton] at hnext
      rw [List.length_cons, List.range'_succ, List.anyM, h front a back hsplit, List.any_cons]
      cases p a with
      | true => rfl
      | false => exact hnext

end Loops

/-! ## Rows -/

section Rows

variable {n : Nat} {front back : List (Row n)} {row : Row n}

/-- The grid that stores the rows. -/
def gridOf (rows : List (Row n)) : Grid := ⟨rows.map Row.entries, n⟩

theorem row_gridOf : (gridOf (front ++ row :: back)).row front.length = .ok row.entries := by
  rw [Grid.row, elementAt_eq_ok_iff]
  simp [gridOf]

theorem entry_gridOf {column : Nat} {q : Rat} (h : row.entries[column]? = some q) :
    (gridOf (front ++ row :: back)).entry front.length column = .ok q := by
  simp only [Grid.entry, row_gridOf, bind, Except.bind, elementAt_eq_ok_iff, h]

theorem coefficient_gridOf (c : Fin n) :
    (gridOf (front ++ row :: back)).entry front.length c = .ok (row.coefficient c) :=
  entry_gridOf (row.getElem?_entries c)

theorem constant_gridOf :
    (gridOf (front ++ row :: back)).constant front.length = .ok row.constant :=
  entry_gridOf row.getElem?_entries_last

theorem cutAt_entries (row : Row n) :
    cutAt row.entries n = .ok (row.coefficients.toList, [row.constant]) := by
  have hcut := cutAt_append row.coefficients.toList [row.constant]
  rwa [Vector.length_toList] at hcut

theorem isZeroRow_gridOf :
    (gridOf (front ++ row :: back)).isZeroRow front.length = .ok row.isZero := by
  have hunknowns : (gridOf (front ++ row :: back)).unknowns = n := rfl
  simp only [Grid.isZeroRow, row_gridOf, hunknowns, bind, Except.bind, cutAt_entries]
  simp [Row.isZero, pure, Except.pure]

theorem setRow_gridOf (row' : Row n) :
    (gridOf (front ++ row :: back)).setRow front.length row'.entries =
      .ok (gridOf (front ++ row' :: back)) := by
  have hrows : (gridOf (front ++ row :: back)).rows =
      front.map Row.entries ++ row.entries :: back.map Row.entries := by simp [gridOf]
  have hunknowns : row'.entries.length = (gridOf (front ++ row :: back)).unknowns + 1 :=
    row'.length_entries
  have hlength : (front.map Row.entries).length = front.length := List.length_map _
  rw [Grid.setRow, if_pos hunknowns, hrows, ← hlength, replaceAt_append_cons]
  simp [gridOf, bind, Except.bind, pure, Except.pure]

theorem swapRows_append_cons (front middle back : List (List Rat)) (x y : List Rat) :
    (⟨front ++ x :: (middle ++ y :: back), n⟩ : Grid).swapRows (front.length + 1 + middle.length)
        front.length =
      .ok ⟨front ++ y :: (middle ++ x :: back), n⟩ := by
  have hplace : front.length + 1 + middle.length = (front ++ x :: middle).length := by
    simp
    omega
  have hsplit : ∀ z, front ++ x :: (middle ++ z :: back) = (front ++ x :: middle) ++ z :: back := by
    simp
  have hfound : elementAt (front ++ x :: (middle ++ y :: back))
      (front.length + 1 + middle.length) = .ok y := by
    rw [hsplit, hplace, elementAt_append_cons]
  have hreplaced : replaceAt (front ++ x :: (middle ++ y :: back))
      (front.length + 1 + middle.length) x = .ok (front ++ x :: (middle ++ x :: back)) := by
    rw [hsplit, hplace, replaceAt_append_cons, hsplit]
  simp only [Grid.swapRows, Grid.row, hfound, elementAt_append_cons, hreplaced,
    replaceAt_append_cons, bind, Except.bind]
  rfl

theorem swapRows_gridOf (front : List (Row n)) (row : Row n) (middle : List (Row n))
    (chosen : Row n) (back : List (Row n)) :
    (gridOf (front ++ row :: (middle ++ chosen :: back))).swapRows
        (front.length + 1 + middle.length) front.length =
      .ok (gridOf (front ++ chosen :: (middle ++ row :: back))) := by
  have hswap := swapRows_append_cons (n := n) (front.map Row.entries) (middle.map Row.entries)
    (back.map Row.entries) row.entries chosen.entries
  rw [List.length_map, List.length_map] at hswap
  simpa [gridOf] using hswap

end Rows

/-! ## Filling -/

section Fill

variable {n : Nat}

theorem setEntry_append_cons (front back : List (List Rat)) (before after : List Rat)
    (x q : Rat) :
    (⟨front ++ (before ++ x :: after) :: back, n⟩ : Grid).setEntry front.length before.length q =
      .ok ⟨front ++ (before ++ q :: after) :: back, n⟩ := by
  simp only [Grid.setEntry, Grid.row, elementAt_append_cons, replaceAt_append_cons, bind,
    Except.bind]
  rfl

/-- A row is filled with the entries of another one. -/
theorem foldlM_setEntry (front back : List (List Rat)) {row row' : List Rat}
    {entryOf : Nat → Except Fault Rat} (hlength : row.length = row'.length)
    (h : ∀ j q, row'[j]? = some q → entryOf j = .ok q) :
    (List.range row.length).foldlM
        (fun (g : Grid) j => do g.setEntry front.length j (← entryOf j))
        ⟨front ++ row :: back, n⟩ =
      .ok ⟨front ++ row' :: back, n⟩ := by
  have hrow : row.mapIdx (fun j _ => row'.getD j 0) = row' := by
    apply List.ext_getElem
    · rw [List.length_mapIdx, hlength]
    · intro j hj hj'
      simp [hj']
  rw [← hrow]
  refine foldlM_range_replace (fun row => (⟨front ++ row :: back, n⟩ : Grid)) _ _ row ?_
  intro before x after hj
  have hentry : entryOf before.length = .ok (row'.getD before.length 0) := by
    apply h
    rw [hlength] at hj
    simp [hj]
  simp only [hentry, bind, Except.bind, setEntry_append_cons]

/-- A grid that is filled with the entries of some rows stores them. -/
theorem fill_eq_gridOf (rows : List (Row n)) (entryOf : Nat → Nat → Except Fault Rat)
    (h : ∀ i row, rows[i]? = some row → ∀ j q, row.entries[j]? = some q →
      entryOf i j = .ok q) :
    Grid.fill rows.length n entryOf = .ok (gridOf rows) := by
  let blank := List.replicate rows.length (Row.zero n)
  have hblank : Grid.zeros rows.length n = gridOf blank := by
    simp [Grid.zeros, gridOf, blank, Row.entries_zero]
  have hlength : rows.length = blank.length := by simp [blank]
  have hrows : blank.mapIdx (fun i _ => rows.getD i (Row.zero n)) = rows := by
    apply List.ext_getElem
    · rw [List.length_mapIdx, ← hlength]
    · intro i hi hi'
      simp [hi']
  rw [Grid.fill, hblank, hlength]
  refine (foldlM_range_replace gridOf (fun i _ => rows.getD i (Row.zero n)) _ blank ?_).trans
    (congrArg (fun rows => Except.ok (gridOf rows)) hrows)
  intro front row back hi
  have hrow : rows[front.length]? = some (rows.getD front.length (Row.zero n)) := by
    rw [← hlength] at hi
    simp [hi]
  have hfront : front.length = (front.map Row.entries).length := (List.length_map _).symm
  have hsame : row.entries.length = (rows.getD front.length (Row.zero n)).entries.length := by
    rw [Row.length_entries, Row.length_entries]
  have hset := foldlM_setEntry (n := n) (front.map Row.entries) (back.map Row.entries) hsame
    (h front.length _ hrow)
  rw [Row.length_entries, ← hfront] at hset
  simpa [gridOf] using hset

theorem columnProduct_gridOf (rows : List (Row n)) (c : Fin n) {j : Nat} {entry : Row n → Rat}
    (h : ∀ row : Row n, row.entries[j]? = some (entry row)) :
    (gridOf rows).columnProduct c j =
      .ok (rows.map fun row => row.coefficient c * entry row).sum := by
  suffices hsum : ∀ sum, (rows.map Row.entries).foldlM (fun sum row => do
      let x ← elementAt row c.val
      if x = 0 then return sum
      return sum + x * (← elementAt row j)) sum =
        (Except.ok (sum + (rows.map fun row => row.coefficient c * entry row).sum) :
          Except Fault Rat) by
    rw [Grid.columnProduct, gridOf, hsum, zero_add]
  induction rows with
  | nil =>
      intro sum
      simp [pure, Except.pure]
  | cons row rows ih =>
      intro sum
      have hc := elementAt_eq_ok_iff.mpr (row.getElem?_entries c)
      have hj := elementAt_eq_ok_iff.mpr (h row)
      rw [List.map_cons, List.foldlM_cons, List.map_cons, List.sum_cons, ← add_assoc]
      simp only [bind, Except.bind, hc, hj]
      by_cases hzero : row.coefficient c = 0
      · rw [if_pos hzero, hzero, zero_mul, add_zero]
        exact ih sum
      · rw [if_neg hzero]
        exact ih _

/-- The normal equations are filled in as they are defined. -/
theorem normalEquations_gridOf (m : AugmentedMatrix n) :
    (gridOf m.rows).normalEquations = .ok (gridOf m.normalEquations.rows) := by
  have hlength : m.normalEquations.rows.length = n := by simp [AugmentedMatrix.normalEquations]
  have hfill := fill_eq_gridOf m.normalEquations.rows (gridOf m.rows).columnProduct (by
    intro i row hrow j q hq
    obtain ⟨c, rfl, rfl⟩ : ∃ c : Fin n, i = c.val ∧ row = m.normalRow c := by
      obtain ⟨hi, rfl⟩ := List.getElem?_eq_some_iff.mp hrow
      exact ⟨⟨i, hlength ▸ hi⟩, rfl, by simp [AugmentedMatrix.normalEquations]; rfl⟩
    rcases Row.getElem?_entries_cases hq with ⟨d, rfl, rfl⟩ | ⟨rfl, rfl⟩
    · rw [columnProduct_gridOf m.rows c fun row => row.getElem?_entries d,
        AugmentedMatrix.coefficient_normalRow]
    · rw [columnProduct_gridOf m.rows c fun row => row.getElem?_entries_last]
      rfl)
  rw [hlength] at hfill
  exact hfill

end Fill

end Checked

end LinearSystems
