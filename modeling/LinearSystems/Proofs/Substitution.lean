import LinearSystems.Proofs.ReducedForm
import LinearSystems.Proofs.ValueNumbers
import LinearSystems.Solver
import Mathlib.Data.List.OfFn
import Mathlib.Tactic.Linarith

/-!
# Back-substitution

Rows in echelon form, whether or not they are reduced above their pivots, are solved from
the last one up. `Substituted P values` says what the values are once the rows of the
pivots `P` were taken: an unknown without a pivot is still itself, only such unknowns are
mentioned, none of them to the left of the unknown whose value mentions it, and numbers
for all unknowns agree with the values just if they solve the rows.

* `Pivot.exists_solve`: the value that one row gives its unknown.
* `Substituted.set`: one more row, above those that were taken.
* `exists_solvePivots`: all rows.
-/

namespace LinearSystems

open Finset

/-- Pivot rows that each start in the column of their pivot, one further to the right than
the other. -/
structure IsEchelon {n : Nat} (pivots : List (Pivot n)) : Prop where
  sorted : pivots.Pairwise (fun p q => p.column < q.column)
  ne_zero : ∀ p ∈ pivots, p.row.coefficient p.column ≠ 0
  left : ∀ p ∈ pivots, ∀ d < p.column, p.row.coefficient d = 0

theorem Reduction.IsReduced.isEchelon {n : Nat} {r : Reduction n} (h : r.IsReduced) :
    IsEchelon r.pivots where
  sorted := h.sorted
  ne_zero p hp := by
    rw [h.unit p hp p hp, if_pos rfl]
    exact one_ne_zero
  left := h.left

/-! ## Lists of values by column -/

section Columns

variable {n : Nat}

theorem set_ofFn (values : Fin n → Value) (c : Fin n) (v : Value) :
    (List.ofFn values).set c v = List.ofFn (Function.update values c v) := by
  apply List.ext_getElem
  · simp
  · intro i hi _
    rw [List.getElem_set, List.getElem_ofFn, List.getElem_ofFn, Function.update_apply]
    by_cases hic : i = c.val
    · rw [if_pos hic.symm, if_pos (Fin.ext hic)]
    · rw [if_neg (Ne.symm hic), if_neg (fun he => hic (congrArg Fin.val he))]

theorem entries_zip_ofFn (row : Row n) (values : Fin n → Value) :
    row.entries.zip (List.ofFn values) = List.ofFn fun d => (row.coefficient d, values d) := by
  apply List.ext_getElem
  · simp [Row.entries]
  · intro i hi _
    have hin : i < n := by simpa [Row.entries] using hi
    simp [Row.entries, Row.coefficient, List.getElem_append_left, hin]

theorem sum_drop_ofFn (f : Fin n → Rat) (k : Nat) :
    ((List.ofFn f).drop k).sum = ∑ d, if k ≤ d.val then f d else 0 := by
  induction n generalizing k with
  | zero => simp
  | succ n ih =>
      cases k with
      | zero =>
          rw [List.drop_zero, List.sum_ofFn]
          simp
      | succ k =>
          rw [List.ofFn_succ, List.drop_succ_cons, ih, Fin.sum_univ_succ]
          simp

end Columns

/-! ## The value of one row -/

section Fold

variable {inverse : Rat} {l : List (Rat × Value)} {start : Value}

/-- A value plus the later terms of a row. -/
def addLater (inverse : Rat) (l : List (Rat × Value)) (start : Value) : Value :=
  l.foldl (fun sum (entry, value) =>
    if entry = 0 then sum else sum + value.scaled (-(entry * inverse))) start

theorem addLater_cons (e : Rat × Value) :
    addLater inverse (e :: l) start =
      addLater inverse l (if e.1 = 0 then start else start + e.2.scaled (-(e.1 * inverse))) := rfl

theorem name_addLater : (addLater inverse l start).name = start.name := by
  induction l generalizing start with
  | nil => rfl
  | cons e rest ih =>
      rw [addLater_cons, ih]
      split <;> rfl

theorem number_addLater (x : String → Rat) :
    (addLater inverse l start).number x =
      start.number x - (l.map fun e => e.1 * e.2.number x).sum * inverse := by
  induction l generalizing start with
  | nil => simp [addLater]
  | cons e rest ih =>
      rw [addLater_cons, ih, List.map_cons, List.sum_cons]
      split
      · next hzero =>
        rw [hzero]
        ring
      · rw [Value.number_add, Value.number_scaled]
        ring

theorem mem_freeUnknowns_addLater {name : String}
    (h : name ∈ (addLater inverse l start).freeUnknowns) :
    name ∈ start.freeUnknowns ∨ ∃ e ∈ l, name ∈ e.2.freeUnknowns := by
  induction l generalizing start with
  | nil => exact Or.inl h
  | cons e rest ih =>
      rw [addLater_cons] at h
      rcases ih h with hstart | ⟨e', he', hname⟩
      · split at hstart
        · exact Or.inl hstart
        · rcases Value.mem_freeUnknowns_add hstart with hstart | hscaled
          · exact Or.inl hstart
          · exact Or.inr ⟨e, List.mem_cons_self, Value.mem_freeUnknowns_scaled hscaled⟩
      · exact Or.inr ⟨e', List.mem_cons_of_mem _ he', hname⟩

end Fold

section Solve

variable {names : List String}

theorem Pivot.exists_solve {p : Pivot names.length} (hne : p.row.coefficient p.column ≠ 0)
    (values : Fin names.length → Value) :
    ∃ v, p.solve names (List.ofFn values) = .ok v ∧ v.name = names.get p.column ∧
      (∀ x, v.number x * p.row.coefficient p.column = p.row.constant -
        ∑ d, if p.column < d then p.row.coefficient d * (values d).number x else 0) ∧
      ∀ s ∈ v.freeUnknowns, ∃ d, p.column < d ∧ s ∈ (values d).freeUnknowns := by
  let inverse := (p.row.coefficient p.column)⁻¹
  let later := (List.ofFn fun d => (p.row.coefficient d, values d)).drop (p.column + 1)
  let start := Value.resolved (names.get p.column) (p.row.constant * inverse)
  refine ⟨addLater inverse later start, ?_, name_addLater, fun x => ?_, fun s hs => ?_⟩
  · have hlength : ¬ names.length + 1 < names.length := by omega
    simp only [Pivot.solve, elementAt_val, reciprocal_of_ne_zero hne, bind, Except.bind,
      entries_zip_ofFn, if_neg hlength]
    rfl
  · have hlater : (later.map fun e => e.1 * e.2.number x).sum =
        ∑ d, if p.column < d then p.row.coefficient d * (values d).number x else 0 := by
      rw [List.map_drop, List.map_ofFn, sum_drop_ofFn]
      rfl
    rw [number_addLater, hlater, Value.number_resolved, sub_mul, mul_assoc, mul_assoc,
      inv_mul_cancel₀ hne, mul_one, mul_one]
  · rcases mem_freeUnknowns_addLater hs with hstart | ⟨e, he, hname⟩
    · exact absurd hstart (Value.freeUnknowns_resolved _ _ s)
    · obtain ⟨i, hi, rfl⟩ := List.mem_drop_iff_getElem.mp he
      rw [List.getElem_ofFn] at hname
      have hlt : p.column.val < p.column.val + 1 + i := by omega
      exact ⟨_, Fin.lt_def.mpr hlt, hname⟩

/-- What is left of the gap of an echelon row beside its first term. -/
theorem IsEchelon.gap_eq {n : Nat} {P : List (Pivot n)} (h : IsEchelon P) {p : Pivot n}
    (hp : p ∈ P) (x : Fin n → Rat) (t : Rat) :
    p.row.gap x t = p.row.coefficient p.column * x p.column +
      (∑ d, if p.column < d then p.row.coefficient d * x d else 0) - p.row.constant * t := by
  have hsplit : ∀ d, p.row.coefficient d * x d =
      (if d = p.column then p.row.coefficient p.column * x p.column else 0) +
        if p.column < d then p.row.coefficient d * x d else 0 := by
    intro d
    rcases lt_trichotomy d p.column with hlt | rfl | hlt
    · rw [h.left p hp d hlt, if_neg (ne_of_lt hlt), if_neg (not_lt_of_gt hlt)]
      ring
    · rw [if_pos rfl, if_neg (lt_irrefl _), add_zero]
    · rw [if_neg (ne_of_gt hlt), if_pos hlt, zero_add]
  rw [Row.gap, sum_congr rfl (fun d _ => hsplit d), sum_add_distrib, sum_ite_eq',
    if_pos (mem_univ _)]

/-- Where numbers agree with the values further to the right, they agree with the value of
a row just if they solve it. -/
theorem IsEchelon.number_eq_iff {P : List (Pivot names.length)} (h : IsEchelon P)
    {p : Pivot names.length} (hp : p ∈ P) {values : Fin names.length → Value} {v : Value}
    {x : String → Rat} (hx : ∀ d, (values d).number x = x (names.get d))
    (hv : v.number x * p.row.coefficient p.column = p.row.constant -
      ∑ d, if p.column < d then p.row.coefficient d * (values d).number x else 0) :
    v.number x = x (names.get p.column) ↔ p.row.gap (x ∘ names.get) 1 = 0 := by
  simp only [hx] at hv
  rw [h.gap_eq hp, ← mul_left_inj' (h.ne_zero p hp), hv, mul_one, mul_comm (x _)]
  simp only [Function.comp_apply]
  constructor
  · intro heq
    linarith
  · intro hgap
    linarith

/-! ## The values of all columns -/

/-- The values after the rows of the pivots `P` were taken. -/
structure Substituted (names : List String) (P : List (Pivot names.length))
    (values : Fin names.length → Value) : Prop where
  name : ∀ d, (values d).name = names.get d
  free : ∀ d, d ∉ P.map Pivot.column → values d = Value.free (names.get d)
  mentions : ∀ d, ∀ s ∈ (values d).freeUnknowns,
    ∃ c, d ≤ c ∧ c ∉ P.map Pivot.column ∧ s = names.get c
  agree_iff : ∀ x : String → Rat, (∀ d, (values d).number x = x (names.get d)) ↔
    ∀ p ∈ P, p.row.gap (x ∘ names.get) 1 = 0

theorem substituted_nil : Substituted names [] fun d => Value.free (names.get d) where
  name _ := rfl
  free _ _ := rfl
  mentions d s hs := by
    rw [Value.freeUnknowns_free, List.mem_singleton] at hs
    exact ⟨d, le_refl d, List.not_mem_nil, hs⟩
  agree_iff x := by simp

variable {P : List (Pivot names.length)} {p : Pivot names.length}
  {values : Fin names.length → Value}

theorem Substituted.map_name (h : Substituted names P values) :
    (List.ofFn values).map Value.name = names := by
  have hnames : Value.name ∘ values = names.get := funext h.name
  rw [List.map_ofFn, hnames]
  exact List.ofFn_get names

theorem Substituted.mem_names (h : Substituted names P values) (d : Fin names.length) :
    ∀ s ∈ (values d).freeUnknowns, s ∈ names := by
  intro s hs
  obtain ⟨c, -, -, rfl⟩ := h.mentions d s hs
  exact List.get_mem _ _

theorem Substituted.set (h : Substituted names P values) (hP : IsEchelon (p :: P)) {v : Value}
    (hname : v.name = names.get p.column)
    (hnumber : ∀ x, v.number x * p.row.coefficient p.column = p.row.constant -
      ∑ d, if p.column < d then p.row.coefficient d * (values d).number x else 0)
    (hfree : ∀ s ∈ v.freeUnknowns, ∃ d, p.column < d ∧ s ∈ (values d).freeUnknowns) :
    Substituted names (p :: P) (Function.update values p.column v) := by
  have hcolumn : p.column ∉ P.map Pivot.column := by
    intro hmem
    obtain ⟨q, hq, hqp⟩ := List.mem_map.mp hmem
    exact absurd hqp (ne_of_gt ((List.pairwise_cons.mp hP.sorted).1 q hq))
  have hmem : ∀ c, c ∉ (p :: P).map Pivot.column ↔ c ≠ p.column ∧ c ∉ P.map Pivot.column := by
    simp
  have hrow : ∀ x : String → Rat, (∀ d, (values d).number x = x (names.get d)) →
      (v.number x = x (names.get p.column) ↔ p.row.gap (x ∘ names.get) 1 = 0) := by
    intro x hx
    exact hP.number_eq_iff List.mem_cons_self hx (hnumber x)
  constructor
  · intro d
    rw [Function.update_apply]
    split
    · next hd => rw [hname, hd]
    · exact h.name d
  · intro d hd
    obtain ⟨hne, hd⟩ := (hmem d).mp hd
    rw [Function.update_of_ne hne]
    exact h.free d hd
  · intro d s hs
    rw [Function.update_apply] at hs
    split at hs
    · next hd =>
      obtain ⟨d', hlt, hs⟩ := hfree s hs
      obtain ⟨c, hle, hc, rfl⟩ := h.mentions d' s hs
      have hltc := lt_of_lt_of_le hlt hle
      exact ⟨c, hd ▸ le_of_lt hltc, (hmem c).mpr ⟨ne_of_gt hltc, hc⟩, rfl⟩
    · next hne =>
      -- A pivot taken before is to the right of the new one, and its value mentions only
      -- unknowns still further to the right; a value without a pivot mentions itself.
      by_cases hd : d ∈ P.map Pivot.column
      · obtain ⟨c, hle, hc, rfl⟩ := h.mentions d s hs
        obtain ⟨q, hq, rfl⟩ := List.mem_map.mp hd
        have hlt := (List.pairwise_cons.mp hP.sorted).1 q hq
        exact ⟨c, hle, (hmem c).mpr ⟨ne_of_gt (lt_of_lt_of_le hlt hle), hc⟩, rfl⟩
      · rw [h.free d hd, Value.freeUnknowns_free, List.mem_singleton] at hs
        exact ⟨d, le_refl d, (hmem d).mpr ⟨hne, hd⟩, hs⟩
  · intro x
    constructor
    · intro hx
      have hold : ∀ d, (values d).number x = x (names.get d) := by
        intro d
        by_cases hd : d = p.column
        · rw [hd, h.free _ hcolumn, Value.number_free]
        · have := hx d
          rwa [Function.update_of_ne hd] at this
      have hself := hx p.column
      rw [Function.update_self] at hself
      intro q hq
      rcases List.mem_cons.mp hq with rfl | hq
      · exact (hrow x hold).mp hself
      · exact (h.agree_iff x).mp hold q hq
    · intro hP' d
      have hold := (h.agree_iff x).mpr fun q hq => hP' q (List.mem_cons_of_mem _ hq)
      rw [Function.update_apply]
      split
      · next hd =>
        rw [hd]
        exact (hrow x hold).mpr (hP' p List.mem_cons_self)
      · exact hold d

theorem exists_solvePivots (hP : IsEchelon P) :
    ∃ values : Fin names.length → Value,
      solvePivots names P = .ok (List.ofFn values) ∧ Substituted names P values := by
  induction P with
  | nil =>
      refine ⟨_, ?_, substituted_nil⟩
      rw [solvePivots, ← Function.comp_def Value.free, ← List.map_ofFn]
      simp
  | cons p P ih =>
      have hrest : IsEchelon P :=
        { sorted := (List.pairwise_cons.mp hP.sorted).2
          ne_zero := fun q hq => hP.ne_zero q (List.mem_cons_of_mem _ hq)
          left := fun q hq => hP.left q (List.mem_cons_of_mem _ hq) }
      obtain ⟨values, hrun, hvalues⟩ := ih hrest
      obtain ⟨v, hv, hname, hnumber, hfree⟩ :=
        Pivot.exists_solve (hP.ne_zero p List.mem_cons_self) values
      refine ⟨_, ?_, hvalues.set hP hname hnumber hfree⟩
      simp only [solvePivots, hrun, hv, bind, Except.bind]
      rw [set_ofFn]
      rfl

end Solve

end LinearSystems
