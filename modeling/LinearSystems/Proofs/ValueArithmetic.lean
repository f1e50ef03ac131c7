import LinearSystems.Proofs.Assignments
import LinearSystems.Proofs.PrunedTerms

/-!
# Arithmetic of values

A value is a number just where all unknowns in it are. There sums and multiples of values are
sums and multiples of numbers. A sum may have fewer unknowns than its parts, if terms cancel, so
that it can be a number where its parts are not.

The laws of addition hold of the terms themselves and not only of the numbers: both sides of a
law are in normal form and have the same coefficients.

* `evaluate_isSome_iff`: where a value is a number.
* `evaluate_add`, `evaluate_scaled`: the number of a sum and of a multiple.
* `terms_add_comm`, `add_assoc`, `scaled_add`: the laws of the terms.
-/

namespace LinearSystems.Value

open LinearSystem (numbers)

variable {u v w : Value} {σ : String → Option Rat}

/-! ## Evaluation -/

theorem evaluate_eq_number (h : ∀ name ∈ v.freeUnknowns, (σ name).isSome = true) :
    v.evaluate σ = some (v.number (numbers σ)) := by
  apply evaluate_eq_some
  intro name hname
  obtain ⟨q, hq⟩ := Option.isSome_iff_exists.mp (h name hname)
  rw [numbers, hq]
  rfl

theorem evaluate_isSome_iff :
    (v.evaluate σ).isSome = true ↔ ∀ name ∈ v.freeUnknowns, (σ name).isSome = true := by
  constructor
  · intro h name hname
    obtain ⟨q, hq⟩ := Option.isSome_iff_exists.mp h
    obtain ⟨r, hr⟩ := Table.exists_of_evaluate_eq_some hq _ (mem_freeUnknowns.mp hname)
    exact Option.isSome_iff_exists.mpr ⟨r, hr⟩
  · intro h
    rw [evaluate_eq_number h]
    rfl

theorem evaluate_add (hv : ∀ name ∈ v.freeUnknowns, (σ name).isSome = true)
    (hw : ∀ name ∈ w.freeUnknowns, (σ name).isSome = true) :
    (v + w).evaluate σ = some (v.number (numbers σ) + w.number (numbers σ)) := by
  rw [evaluate_eq_number, number_add]
  intro name hname
  rcases mem_freeUnknowns_add hname with hname | hname
  · exact hv name hname
  · exact hw name hname

theorem evaluate_scaled (hv : ∀ name ∈ v.freeUnknowns, (σ name).isSome = true) (q : Rat) :
    (v.scaled q).evaluate σ = some (q * v.number (numbers σ)) := by
  rw [evaluate_eq_number, number_scaled, mul_comm]
  intro name hname
  exact hv name (mem_freeUnknowns_scaled hname)

/-! ## Coefficients -/

theorem coefficient_terms_add (v w : Value) (k : Symbol) :
    (v + w).terms.coefficient k = v.terms.coefficient k + w.terms.coefficient k :=
  (coefficient_prune _ k).trans (Table.coefficient_merge v.terms w.terms k)

theorem coefficient_terms_scaled (v : Value) (q : Rat) (k : Symbol) :
    (v.scaled q).terms.coefficient k = v.terms.coefficient k * q :=
  (coefficient_prune _ k).trans (Table.coefficient_map_mul v.terms q k)

theorem isPruned_terms_add (v w : Value) : IsPruned (v + w).terms := isPruned_prune _

theorem isPruned_terms_scaled (v : Value) (q : Rat) : IsPruned (v.scaled q).terms :=
  isPruned_prune _

/-! ## Laws -/

theorem terms_add_comm (v w : Value) : (v + w).terms = (w + v).terms := by
  apply (isPruned_terms_add v w).ext_coefficient (isPruned_terms_add w v)
  intro k
  rw [coefficient_terms_add, coefficient_terms_add, add_comm]

/-- Values of one name are equal if they are in normal form and have the same coefficients. -/
theorem ext_coefficient (hname : v.name = w.name) (hv : IsPruned v.terms) (hw : IsPruned w.terms)
    (h : ∀ k, v.terms.coefficient k = w.terms.coefficient k) : v = w := by
  obtain ⟨name, terms⟩ := v
  obtain ⟨name', terms'⟩ := w
  obtain rfl : name = name' := hname
  obtain rfl : terms = terms' := hv.ext_coefficient hw h
  rfl

protected theorem add_assoc (u v w : Value) : u + v + w = u + (v + w) := by
  refine ext_coefficient rfl (isPruned_terms_add _ _) (isPruned_terms_add _ _) fun k => ?_
  simp only [coefficient_terms_add, add_assoc]

theorem scaled_add (v w : Value) (q : Rat) : (v + w).scaled q = v.scaled q + w.scaled q := by
  refine ext_coefficient rfl (isPruned_terms_scaled _ _) (isPruned_terms_add _ _) fun k => ?_
  simp only [coefficient_terms_add, coefficient_terms_scaled, add_mul]

/-- **Arithmetic of values is arithmetic of numbers.** A value is a number just where all free
unknowns in it are; there sums and multiples of values are sums and multiples of numbers. Sums
of values are commutative in their terms, associative, and multiplied term by term, and take
the name on the left. -/
theorem evaluate_arithmetic (u v w : Value) (q : Rat) (σ : String → Option Rat) :
    ((u.evaluate σ).isSome = true ↔ ∀ name ∈ u.freeUnknowns, (σ name).isSome = true) ∧
      ((∀ name ∈ u.freeUnknowns, (σ name).isSome = true) →
        (∀ name ∈ v.freeUnknowns, (σ name).isSome = true) →
        ∃ a b, u.evaluate σ = some a ∧ v.evaluate σ = some b ∧
          (u + v).evaluate σ = some (a + b) ∧ (u.scaled q).evaluate σ = some (q * a)) ∧
      (u + v).terms = (v + u).terms ∧ (u + v).name = u.name ∧
      u + v + w = u + (v + w) ∧ (u + v).scaled q = u.scaled q + v.scaled q ∧
      (u.scaled q).name = u.name := by
  refine ⟨evaluate_isSome_iff, fun hu hv => ?_, terms_add_comm u v, rfl, Value.add_assoc u v w,
    scaled_add u v q, rfl⟩
  refine ⟨u.number (numbers σ), v.number (numbers σ), evaluate_eq_number hu,
    evaluate_eq_number hv, ?_, ?_⟩
  · exact evaluate_add hu hv
  · exact evaluate_scaled hu q

end LinearSystems.Value
