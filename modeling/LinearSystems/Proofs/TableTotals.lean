import LinearSystems.Table
import Mathlib.Algebra.BigOperators.Fin
import Mathlib.Algebra.BigOperators.Ring.Finset
import Mathlib.Algebra.Order.Field.Rat
import Mathlib.Tactic.Ring

/-!
# Totals of tables

`Table.evaluate` stops at the first key without a weight. Where every key has one, its
result is a plain sum, `Table.total`, and the operations on tables become sums and
products: a change at one key adds to the total what it adds to the number of the key.

* `evaluate_eq_some`: with a weight for every key, evaluation gives the total.
* `total_merge`, `total_map_mul`, `total_filter_ne_zero`: the operations of values.
* `total_eq_sum`: the total over any list of names that has all keys, as a dense sum.
* `total_single`: the total with the weight one for a single key.
-/

namespace LinearSystems.Table

open Finset

variable {κ : Type}

/-- The sum of the numbers in a list of entries, each times the weight of its key. -/
def totalOf (w : κ → Rat) (l : List (κ × Rat)) : Rat := (l.map fun e => e.2 * w e.1).sum

@[simp] theorem totalOf_nil (w : κ → Rat) : totalOf w [] = 0 := rfl

@[simp] theorem totalOf_cons (w : κ → Rat) (k : κ) (q : Rat) (l : List (κ × Rat)) :
    totalOf w ((k, q) :: l) = q * w k + totalOf w l := rfl

/-! ## Evaluation -/

theorem go_eq_some {weight : κ → Option Rat} {w : κ → Rat} {l : List (κ × Rat)}
    (h : ∀ e ∈ l, weight e.1 = some (w e.1)) :
    evaluate.go weight l = some (totalOf w l) := by
  induction l with
  | nil => rfl
  | cons e rest ih =>
      obtain ⟨k, q⟩ := e
      have hk : weight k = some (w k) := h (k, q) List.mem_cons_self
      have hrest := ih (fun e he => h e (List.mem_cons_of_mem _ he))
      simp only [evaluate.go, hk, hrest]
      rfl

theorem exists_of_go_eq_some {weight : κ → Option Rat} {l : List (κ × Rat)} {q : Rat}
    (h : evaluate.go weight l = some q) : ∀ e ∈ l, ∃ r, weight e.1 = some r := by
  induction l generalizing q with
  | nil => simp
  | cons e rest ih =>
      obtain ⟨k, p⟩ := e
      rw [evaluate.go] at h
      obtain ⟨r, hr, h⟩ := Option.bind_eq_some_iff.mp h
      obtain ⟨subtotal, hrest, -⟩ := Option.bind_eq_some_iff.mp h
      intro e he
      rcases List.mem_cons.mp he with rfl | he
      · exact ⟨r, hr⟩
      · exact ih hrest e he

variable [Key κ]

def total (w : κ → Rat) (t : Table κ) : Rat := totalOf w t.entries

theorem evaluate_eq_some {weight : κ → Option Rat} {w : κ → Rat} {t : Table κ}
    (h : ∀ k ∈ t.keys, weight k = some (w k)) : t.evaluate weight = some (t.total w) :=
  go_eq_some fun e he => h e.1 (List.mem_map_of_mem he)

theorem exists_of_evaluate_eq_some {weight : κ → Option Rat} {t : Table κ} {q : Rat}
    (h : t.evaluate weight = some q) : ∀ k ∈ t.keys, ∃ r, weight k = some r := by
  intro k hk
  obtain ⟨e, he, rfl⟩ := List.mem_map.mp hk
  exact exists_of_go_eq_some h e he

/-! ## Operations without a look at the keys -/

theorem total_map_mul (w : κ → Rat) (t : Table κ) (q : Rat) :
    (t.map (· * q)).total w = t.total w * q := by
  unfold total map
  dsimp only
  induction t.entries with
  | nil => simp
  | cons e rest ih =>
      obtain ⟨k, r⟩ := e
      rw [List.map_cons, totalOf_cons, totalOf_cons, ih]
      ring

theorem total_filter_ne_zero (w : κ → Rat) (t : Table κ) :
    (t.filter (fun q => decide (q ≠ 0))).total w = t.total w := by
  unfold total filter
  dsimp only
  induction t.entries with
  | nil => rfl
  | cons e rest ih =>
      obtain ⟨k, r⟩ := e
      by_cases hr : r = 0
      · rw [List.filter_cons_of_neg (by simp [hr]), ih, totalOf_cons, hr, zero_mul, zero_add]
      · rw [List.filter_cons_of_pos (by simp [hr]), totalOf_cons, totalOf_cons, ih]

@[simp] theorem total_singleton (w : κ → Rat) (k : κ) (q : Rat) :
    (singleton k q).total w = q * w k := by
  simp [total, singleton]

theorem total_zero_weight (t : Table κ) : t.total (fun _ => 0) = 0 := by
  simp [total, totalOf]

theorem total_weight_add (w w' : κ → Rat) (t : Table κ) :
    t.total (fun k => w k + w' k) = t.total w + t.total w' := by
  simp only [total, totalOf, mul_add, List.sum_map_add]

theorem keys_map (f : Rat → Rat) (t : Table κ) : (t.map f).keys = t.keys := by
  simp [keys, map, List.map_map, Function.comp_def]

/-! ## Changes at one key -/

variable [DecidableEq κ]

theorem totalOf_alterEntries (w : κ → Rat) {k : κ} {change : Option Rat → Rat}
    {l : List (κ × Rat)} (h : l.Pairwise (fun a b => Key.before a.1 b.1 = true)) :
    totalOf w (alterEntries k change l) =
      totalOf w l + (change (l.lookup k) - (l.lookup k).getD 0) * w k := by
  induction l with
  | nil => simp [alterEntries]
  | cons head rest ih =>
      obtain ⟨a, q⟩ := head
      obtain ⟨ha, hrest⟩ := List.pairwise_cons.mp h
      rw [alterEntries]
      split
      · next hk =>
        subst hk
        simp only [totalOf_cons, List.lookup_cons_self, Option.getD_some]
        ring
      · next hne =>
        split
        · next hka =>
          have hnone : ((a, q) :: rest).lookup k = none := by
            apply lookup_eq_none_of_before
            intro e he
            rcases List.mem_cons.mp he with rfl | he
            · exact hka
            · exact Key.before_trans hka (ha e he)
          rw [hnone, totalOf_cons]
          simp only [Option.getD_none]
          ring
        · rw [totalOf_cons, totalOf_cons, ih hrest, lookup_cons_of_ne hne]
          ring

theorem total_add (w : κ → Rat) (t : Table κ) (k : κ) (q : Rat) :
    (t.add k q).total w = t.total w + q * w k := by
  have h : (t.add k q).total w =
      t.total w + ((t.find? k).getD 0 + q - (t.find? k).getD 0) * w k :=
    totalOf_alterEntries w t.sorted
  rw [add_sub_cancel_left] at h
  exact h

theorem total_merge (w : κ → Rat) (s t : Table κ) :
    (s.merge t).total w = s.total w + t.total w := by
  unfold merge
  rw [show t.total w = totalOf w t.entries from rfl]
  induction t.entries generalizing s with
  | nil => simp
  | cons e rest ih =>
      obtain ⟨k, q⟩ := e
      rw [List.foldl_cons, ih, total_add, totalOf_cons]
      ring

/-! ## Dense sums -/

theorem lookup_getD_cons {a x : κ} {q : Rat} {l : List (κ × Rat)}
    (ha : ∀ e ∈ l, Key.before a e.1 = true) :
    (((a, q) :: l).lookup x).getD 0 = (if x = a then q else 0) + (l.lookup x).getD 0 := by
  by_cases hx : x = a
  · subst hx
    simp [lookup_eq_none_of_before ha]
  · rw [lookup_cons_of_ne hx, if_neg hx, zero_add]

theorem totalOf_eq_sum (w : κ → Rat) {names : List κ} (hnames : names.Nodup)
    {l : List (κ × Rat)} (hl : l.Pairwise (fun a b => Key.before a.1 b.1 = true))
    (h : ∀ e ∈ l, e.1 ∈ names) :
    totalOf w l = ∑ j : Fin names.length, (l.lookup (names.get j)).getD 0 * w (names.get j) := by
  induction l with
  | nil => simp
  | cons head rest ih =>
      obtain ⟨a, q⟩ := head
      obtain ⟨ha, hrest⟩ := List.pairwise_cons.mp hl
      obtain ⟨i, rfl⟩ := List.mem_iff_get.mp (h (a, q) List.mem_cons_self)
      -- Only the column of the first key sees its number.
      have hone : ∑ j : Fin names.length,
          (if names.get j = names.get i then q else 0) * w (names.get j) = q * w (names.get i) := by
        rw [sum_eq_single i]
        · rw [if_pos rfl]
        · intro j _ hj
          rw [if_neg (fun he => hj (List.nodup_iff_injective_get.mp hnames he)), zero_mul]
        · intro hi
          exact absurd (mem_univ i) hi
      rw [totalOf_cons, ih hrest (fun e he => h e (List.mem_cons_of_mem _ he)), ← hone,
        ← sum_add_distrib]
      apply sum_congr rfl
      intro j _
      rw [lookup_getD_cons ha, add_mul]

theorem total_eq_sum (w : κ → Rat) {names : List κ} (hnames : names.Nodup) {t : Table κ}
    (h : ∀ k ∈ t.keys, k ∈ names) :
    t.total w = ∑ j : Fin names.length, t.coefficient (names.get j) * w (names.get j) :=
  totalOf_eq_sum w hnames t.sorted fun e he => h e.1 (List.mem_map_of_mem he)

/-! ## Single keys -/

theorem totalOf_single (k : κ) {l : List (κ × Rat)}
    (hl : l.Pairwise (fun a b => Key.before a.1 b.1 = true)) :
    totalOf (fun a => if a = k then 1 else 0) l = (l.lookup k).getD 0 := by
  induction l with
  | nil => rfl
  | cons head rest ih =>
      obtain ⟨a, q⟩ := head
      obtain ⟨ha, hrest⟩ := List.pairwise_cons.mp hl
      rw [totalOf_cons, lookup_getD_cons ha, ih hrest]
      by_cases hk : a = k
      · rw [if_pos hk, if_pos hk.symm, mul_one]
      · rw [if_neg hk, if_neg (Ne.symm hk), mul_zero]

/-- Where a single key has the weight one, the total is its number. -/
theorem total_single (t : Table κ) (k : κ) :
    t.total (fun a => if a = k then 1 else 0) = t.coefficient k :=
  totalOf_single k t.sorted

end LinearSystems.Table
