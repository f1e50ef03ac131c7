import LinearSystems.Proofs.TableSums
import LinearSystems.Proofs.TableTotals
import LinearSystems.Value

/-!
# Numbers of values

Where every unknown is a number, a value is one too: `Value.number x`. It does not see
what `prune` drops, so that it turns sums and multiples of values into sums and multiples
of numbers. On the way the free unknowns of a value can only be those of its parts.

* `number_add`, `number_scaled`: the number of a sum and of a multiple.
* `number_zero`, `number_single`: the constant and the coefficients, told by numbers.
* `mem_freeUnknowns_add`, `mem_freeUnknowns_scaled`: where the free unknowns come from.
* `evaluate_eq_some`: evaluation finds the number, if the free unknowns are numbers.
-/

namespace LinearSystems

/-- The number that a symbol stands for, where every unknown is a number. -/
def Symbol.number (x : String → Rat) : Symbol → Rat
  | constant => 1
  | unknown name => x name

/-! ## Pruning -/

theorem total_prune (w : Symbol → Rat) (terms : Table Symbol) :
    (prune terms).total w = terms.total w := by
  rw [← Table.total_filter_ne_zero w terms]
  unfold prune
  dsimp only
  split
  · next h =>
    rw [Table.total_singleton, zero_mul, Table.total, List.isEmpty_iff.mp h, Table.totalOf_nil]
  · rfl

theorem mem_keys_prune {terms : Table Symbol} {name : String}
    (h : Symbol.unknown name ∈ (prune terms).keys) : Symbol.unknown name ∈ terms.keys := by
  unfold prune at h
  dsimp only at h
  split at h
  · simp [Table.singleton, Table.keys] at h
  · obtain ⟨e, he, hname⟩ := List.mem_map.mp h
    exact List.mem_map.mpr ⟨e, List.mem_of_mem_filter he, hname⟩

theorem mem_entries_prune {terms : Table Symbol} {e : Symbol × Rat}
    (h : e ∈ (prune terms).entries) : e ∈ terms.entries ∨ e.2 = 0 := by
  unfold prune at h
  dsimp only at h
  split at h
  · rw [List.mem_singleton.mp h]
    exact Or.inr rfl
  · exact Or.inl (List.mem_of_mem_filter h)

namespace Value

/-! ## The number of a value -/

/-- The number that a value is, where every unknown is a number. -/
def number (x : String → Rat) (v : Value) : Rat := v.terms.total (Symbol.number x)

theorem number_ofTerms (x : String → Rat) (name : String) (terms : Table Symbol) :
    (ofTerms name terms).number x = terms.total (Symbol.number x) :=
  total_prune _ _

@[simp] theorem number_resolved (x : String → Rat) (name : String) (q : Rat) :
    (resolved name q).number x = q := by
  rw [resolved, number_ofTerms, Table.total_singleton]
  exact mul_one q

@[simp] theorem number_free (x : String → Rat) (name : String) :
    (free name).number x = x name := by
  rw [free, number_ofTerms, Table.total_singleton]
  exact one_mul _

@[simp] theorem number_add (x : String → Rat) (v w : Value) :
    (v + w).number x = v.number x + w.number x := by
  show (ofTerms v.name (v.terms.merge w.terms)).number x = _
  rw [number_ofTerms, Table.total_merge]
  rfl

@[simp] theorem number_scaled (x : String → Rat) (v : Value) (q : Rat) :
    (v.scaled q).number x = v.number x * q := by
  rw [scaled, number_ofTerms, Table.total_map_mul]
  rfl

theorem number_zero (v : Value) : v.number (fun _ => 0) = v.constant := by
  have hweight : Symbol.number (fun _ => 0) = fun a => if a = .constant then 1 else 0 := by
    funext a
    cases a <;> rfl
  rw [number, hweight, Table.total_single]
  rfl

theorem number_single (v : Value) (name : String) :
    v.number (fun a => if a = name then 1 else 0) = v.coefficient name + v.constant := by
  have hweight : Symbol.number (fun a => if a = name then 1 else 0) = fun a =>
      (if a = .unknown name then 1 else 0) + if a = .constant then 1 else 0 := by
    funext a
    cases a <;> simp [Symbol.number]
  rw [number, hweight, Table.total_weight_add, Table.total_single, Table.total_single]
  rfl

/-! ## Free unknowns -/

theorem mem_freeUnknowns {v : Value} {name : String} :
    name ∈ v.freeUnknowns ↔ Symbol.unknown name ∈ v.terms.keys := by
  unfold freeUnknowns
  constructor
  · intro h
    obtain ⟨symbol, hsymbol, hname⟩ := List.mem_filterMap.mp h
    cases symbol with
    | constant => cases hname
    | unknown a =>
        cases hname
        exact hsymbol
  · intro h
    exact List.mem_filterMap.mpr ⟨_, h, rfl⟩

theorem isResolved_iff {v : Value} : v.isResolved = true ↔ ∀ name, name ∉ v.freeUnknowns := by
  rw [isResolved, List.isEmpty_iff, List.eq_nil_iff_forall_not_mem]

@[simp] theorem freeUnknowns_free (name : String) : (free name).freeUnknowns = [name] := by
  simp [free, ofTerms, prune, freeUnknowns, Table.filter, Table.singleton, Table.keys,
    Symbol.name?]

theorem freeUnknowns_resolved (name : String) (q : Rat) :
    ∀ s, s ∉ (resolved name q).freeUnknowns := by
  intro s hs
  have hkey := mem_keys_prune (mem_freeUnknowns.mp hs)
  simp [Table.singleton, Table.keys] at hkey

theorem mem_freeUnknowns_add {v w : Value} {name : String} (h : name ∈ (v + w).freeUnknowns) :
    name ∈ v.freeUnknowns ∨ name ∈ w.freeUnknowns := by
  have hkey : Symbol.unknown name ∈ (v.terms.merge w.terms).keys :=
    mem_keys_prune (mem_freeUnknowns.mp h)
  rcases Table.mem_keys_merge_iff.mp hkey with hv | hw
  · exact Or.inl (mem_freeUnknowns.mpr hv)
  · exact Or.inr (mem_freeUnknowns.mpr hw)

theorem mem_freeUnknowns_scaled {v : Value} {q : Rat} {name : String}
    (h : name ∈ (v.scaled q).freeUnknowns) : name ∈ v.freeUnknowns := by
  have hkey : Symbol.unknown name ∈ (v.terms.map (· * q)).keys :=
    mem_keys_prune (mem_freeUnknowns.mp h)
  rw [Table.keys_map] at hkey
  exact mem_freeUnknowns.mpr hkey

theorem mem_freeUnknowns_rounded {v : Value} {places : Nat} {name : String}
    (h : name ∈ (v.rounded places).freeUnknowns) : name ∈ v.freeUnknowns := by
  have hkey : Symbol.unknown name ∈ (v.terms.map (roundTo places)).keys :=
    mem_keys_prune (mem_freeUnknowns.mp h)
  rw [Table.keys_map] at hkey
  exact mem_freeUnknowns.mpr hkey

/-! ## Evaluation -/

theorem evaluate_eq_some {σ : String → Option Rat} {x : String → Rat} {v : Value}
    (h : ∀ name ∈ v.freeUnknowns, σ name = some (x name)) :
    v.evaluate σ = some (v.number x) := by
  apply Table.evaluate_eq_some
  intro symbol hsymbol
  cases symbol with
  | constant => rfl
  | unknown name => exact h name (mem_freeUnknowns.mpr hsymbol)

end Value

end LinearSystems
