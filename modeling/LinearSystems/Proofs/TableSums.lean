import LinearSystems.Table
import Mathlib.Algebra.Order.Field.Rat

/-!
# Sums of tables, key by key

What a sum of tables and a table of multiples assign to each key. A key of one summand
alone keeps its number, and a key of neither is not there, so that sums obey the laws of
addition also in what keys they have.

* `find?_merge`, `find?_map`: the number of a key.
* `mem_keys_merge_iff`: the keys of a sum are those of its parts.
* `coefficient_merge`, `coefficient_map_neg`, `coefficient_map_mul`: the same, with zero for a
  key that is not there.
* `find?_eq_ite`: lookup in a table without zeros, by its coefficients.
* `entries_ofList`: the table of pairs that are in order already.
* `tabulate`: the table of a function on finitely many keys.
-/

namespace LinearSystems.Table

/-! ## Numbers of keys -/

theorem lookup_map {κ : Type} [DecidableEq κ] (f : Rat → Rat) (k : κ) (l : List (κ × Rat)) :
    (l.map fun e => (e.1, f e.2)).lookup k = (l.lookup k).map f := by
  induction l with
  | nil => rfl
  | cons e rest ih =>
      obtain ⟨a, q⟩ := e
      rw [List.map_cons]
      by_cases h : k = a
      · subst h
        simp
      · rw [lookup_cons_of_ne h, lookup_cons_of_ne h, ih]

variable {κ : Type} [Key κ] [DecidableEq κ]

@[simp] theorem find?_empty (k : κ) : (∅ : Table κ).find? k = none := rfl

theorem find?_singleton (a k : κ) (q : Rat) :
    (singleton a q).find? k = if k = a then some q else none := by
  unfold find? singleton
  by_cases h : k = a
  · subst h
    simp
  · rw [lookup_cons_of_ne h, if_neg h]
    rfl

@[simp] theorem find?_map (f : Rat → Rat) (t : Table κ) (k : κ) :
    (t.map f).find? k = (t.find? k).map f :=
  lookup_map f k t.entries

theorem find?_foldl_add {s : Table κ} {l : List (κ × Rat)}
    (hl : l.Pairwise (fun a b => Key.before a.1 b.1 = true)) (x : κ) :
    (l.foldl (fun sum e => sum.add e.1 e.2) s).find? x =
      Option.merge (· + ·) (s.find? x) (l.lookup x) := by
  induction l generalizing s with
  | nil => simp
  | cons e rest ih =>
      obtain ⟨k, q⟩ := e
      obtain ⟨hk, hrest⟩ := List.pairwise_cons.mp hl
      rw [List.foldl_cons, ih hrest, add, find?_alter]
      by_cases hx : x = k
      · -- A key that comes first is not among the others.
        subst hx
        rw [if_pos rfl, lookup_eq_none_of_before hk, List.lookup_cons_self]
        cases s.find? x <;> simp
      · rw [if_neg hx, lookup_cons_of_ne hx]

@[simp] theorem find?_merge (s t : Table κ) (x : κ) :
    (s.merge t).find? x = Option.merge (· + ·) (s.find? x) (t.find? x) :=
  find?_foldl_add t.sorted x

/-! ## Keys -/

theorem mem_keys_iff {t : Table κ} {k : κ} : k ∈ t.keys ↔ t.find? k ≠ none := by
  rw [ne_eq, find?, List.lookup_eq_none_iff, keys, List.mem_map]
  simp only [bne_iff_ne, ne_eq, not_forall, not_not]
  constructor
  · rintro ⟨e, he, rfl⟩
    exact ⟨e, he, rfl⟩
  · rintro ⟨e, he, rfl⟩
    exact ⟨e, he, rfl⟩

theorem mem_keys_merge_iff {s t : Table κ} {k : κ} :
    k ∈ (s.merge t).keys ↔ k ∈ s.keys ∨ k ∈ t.keys := by
  rw [mem_keys_iff, mem_keys_iff, mem_keys_iff, find?_merge]
  cases s.find? k <;> cases t.find? k <;> simp

/-! ## Coefficients -/

theorem coefficient_merge (s t : Table κ) (k : κ) :
    (s.merge t).coefficient k = s.coefficient k + t.coefficient k := by
  unfold coefficient
  rw [find?_merge]
  cases s.find? k <;> cases t.find? k <;> simp

theorem coefficient_map_neg (t : Table κ) (k : κ) :
    (t.map (-·)).coefficient k = -t.coefficient k := by
  unfold coefficient
  rw [find?_map]
  cases t.find? k <;> simp

theorem coefficient_map_mul (t : Table κ) (q : Rat) (k : κ) :
    (t.map (· * q)).coefficient k = t.coefficient k * q := by
  unfold coefficient
  rw [find?_map]
  cases t.find? k <;> simp

/-! ## Entries -/

theorem find?_eq_some_iff {t : Table κ} {k : κ} {q : Rat} :
    t.find? k = some q ↔ (k, q) ∈ t.entries := by
  constructor
  · intro h
    obtain ⟨before, after, heq, -⟩ := List.lookup_eq_some_iff.mp h
    rw [heq]
    exact List.mem_append_right _ List.mem_cons_self
  · intro h
    obtain ⟨before, after, heq⟩ := List.append_of_mem h
    have hsorted := t.sorted
    rw [heq] at hsorted
    refine List.lookup_eq_some_iff.mpr ⟨before, after, heq, fun e he => ?_⟩
    have hlt := (List.pairwise_append.mp hsorted).2.2 e he (k, q) List.mem_cons_self
    simpa using (Key.ne_of_before hlt).symm

/-- Where no number is zero, the coefficients tell which keys are there. -/
theorem find?_eq_ite {t : Table κ} (h : ∀ e ∈ t.entries, e.2 ≠ 0) (k : κ) :
    t.find? k = if t.coefficient k = 0 then none else some (t.coefficient k) := by
  cases hfind : t.find? k with
  | none => simp [coefficient, hfind]
  | some q =>
      have hq : q ≠ 0 := h (k, q) (find?_eq_some_iff.mp hfind)
      simp [coefficient, hfind, hq]

/-- The table of the given keys, each with its number. -/
def tabulate (l : List κ) (x : κ → Rat) : Table κ where
  entries := (sortedKeys l).map fun k => (k, x k)
  sorted := (sortedKeys_sorted l).map _ fun _ _ h => h

theorem find?_tabulate {l : List κ} {k : κ} (hk : k ∈ l) (x : κ → Rat) :
    (tabulate l x).find? k = some (x k) :=
  find?_eq_some_iff.mpr (List.mem_map.mpr ⟨k, mem_sortedKeys.mpr hk, rfl⟩)

theorem mem_keys_tabulate {l : List κ} {k : κ} (hk : k ∈ l) (x : κ → Rat) :
    k ∈ (tabulate l x).keys := by
  rw [mem_keys_iff, find?_tabulate hk]
  exact Option.some_ne_none _

theorem alterEntries_eq_append {k : κ} {change : Option Rat → Rat} {l : List (κ × Rat)}
    (h : ∀ e ∈ l, Key.before e.1 k = true) :
    alterEntries k change l = l ++ [(k, change none)] := by
  induction l with
  | nil => rfl
  | cons e rest ih =>
      obtain ⟨a, q⟩ := e
      have ha : Key.before a k = true := h (a, q) List.mem_cons_self
      have hback : ¬ Key.before k a = true := by simp [Key.before_asymm ha]
      rw [alterEntries, if_neg (Key.ne_of_before ha).symm, if_neg hback,
        ih fun e he => h e (List.mem_cons_of_mem _ he)]
      rfl

theorem alterEntries_eq_cons {k : κ} {change : Option Rat → Rat} {l : List (κ × Rat)}
    (h : ∀ e ∈ l, Key.before k e.1 = true) :
    alterEntries k change l = (k, change none) :: l := by
  cases l with
  | nil => rfl
  | cons e rest =>
      have hk : Key.before k e.1 = true := h e List.mem_cons_self
      rw [alterEntries, if_neg (Key.ne_of_before hk), if_pos hk]

theorem entries_foldl_insert {t : Table κ} {pairs : List (κ × Rat)}
    (h : (t.entries ++ pairs).Pairwise (fun a b => Key.before a.1 b.1 = true)) :
    (pairs.foldl (fun t e => t.insert e.1 e.2) t).entries = t.entries ++ pairs := by
  induction pairs generalizing t with
  | nil => simp
  | cons e rest ih =>
      have hend : (t.insert e.1 e.2).entries = t.entries ++ [e] :=
        alterEntries_eq_append fun a ha =>
          (List.pairwise_append.mp h).2.2 a ha e List.mem_cons_self
      have hsplit : t.entries ++ e :: rest = t.entries ++ [e] ++ rest := by simp
      rw [hsplit, ← hend] at h ⊢
      exact ih h

theorem entries_ofList {pairs : List (κ × Rat)}
    (h : pairs.Pairwise (fun a b => Key.before a.1 b.1 = true)) :
    (ofList pairs).entries = pairs :=
  entries_foldl_insert (t := ∅) h

end LinearSystems.Table
