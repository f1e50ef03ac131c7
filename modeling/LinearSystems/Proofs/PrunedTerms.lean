import LinearSystems.Proofs.ValueNumbers

/-!
# The normal form of values

The terms of a value never hold a zero, unless the value is zero: then they are the constant
zero alone. So they are determined by the coefficients, those of terms that are not there
included, and these in turn by the numbers that the value is for numbers of the unknowns. Two
values have the same terms just if they are the same number whatever the unknowns are.

* `IsPruned`, `isPruned_prune`: the normal form, and that pruning gives it.
* `IsPruned.ext_coefficient`: terms in normal form with the same coefficients.
* `Value.IsMade`: the values that can be made.
* `Value.terms_eq_iff_forall_evaluate_eq`: terms in normal form, told by evaluation.
-/

namespace LinearSystems

/-- Terms other than zero, and at least one of them; or else the constant zero alone. -/
def IsPruned (terms : Table Symbol) : Prop :=
  (terms.entries ≠ [] ∧ ∀ e ∈ terms.entries, e.2 ≠ 0) ∨ terms = Table.singleton .constant 0

/-! ## Pruning -/

theorem isPruned_prune (terms : Table Symbol) : IsPruned (prune terms) := by
  unfold prune
  dsimp only
  split
  · exact Or.inr rfl
  · next hne =>
    refine Or.inl ⟨by simpa using hne, fun e he => ?_⟩
    simpa using (List.mem_filter.mp he).2

@[simp] theorem coefficient_prune (terms : Table Symbol) (k : Symbol) :
    (prune terms).coefficient k = terms.coefficient k := by
  rw [← Table.total_single, total_prune, Table.total_single]

/-! ## Terms and coefficients -/

theorem coefficient_zeroTerms (k : Symbol) :
    (Table.singleton Symbol.constant 0).coefficient k = 0 := by
  rw [Table.coefficient, Table.find?_singleton]
  split <;> rfl

theorem exists_coefficient_ne_zero {terms : Table Symbol} (hne : terms.entries ≠ [])
    (h : ∀ e ∈ terms.entries, e.2 ≠ 0) : ∃ k, terms.coefficient k ≠ 0 := by
  obtain ⟨e, he⟩ := List.exists_mem_of_ne_nil _ hne
  refine ⟨e.1, ?_⟩
  rw [Table.coefficient, Table.find?_eq_some_iff.mpr he]
  exact h e he

theorem IsPruned.ext_coefficient {s t : Table Symbol} (hs : IsPruned s) (ht : IsPruned t)
    (h : ∀ k, s.coefficient k = t.coefficient k) : s = t := by
  rcases hs with ⟨hne, hs⟩ | rfl <;> rcases ht with ⟨hne', ht⟩ | rfl
  · apply Table.ext_find?
    intro k
    rw [Table.find?_eq_ite hs, Table.find?_eq_ite ht, h]
  · obtain ⟨k, hk⟩ := exists_coefficient_ne_zero hne hs
    exact absurd ((h k).trans (coefficient_zeroTerms k)) hk
  · obtain ⟨k, hk⟩ := exists_coefficient_ne_zero hne' ht
    exact absurd ((h k).symm.trans (coefficient_zeroTerms k)) hk
  · rfl

namespace Value

/-- The values that can be made, from any terms, and from each other. -/
inductive IsMade : Value → Prop where
  | ofTerms (name : String) (terms : Table Symbol) : IsMade (ofTerms name terms)
  | resolved (name : String) (q : Rat) : IsMade (resolved name q)
  | free (name : String) : IsMade (free name)
  | add {v w : Value} (hv : v.IsMade) (hw : w.IsMade) : IsMade (v + w)
  | scaled {v : Value} (hv : v.IsMade) (q : Rat) : IsMade (v.scaled q)
  | rounded {v : Value} (hv : v.IsMade) (places : Nat) : IsMade (v.rounded places)

theorem IsMade.isPruned {v : Value} (h : v.IsMade) : IsPruned v.terms := by
  cases h with
  | ofTerms name terms => exact isPruned_prune terms
  | resolved name q => exact isPruned_prune _
  | free name => exact isPruned_prune _
  | add hv hw => exact isPruned_prune _
  | scaled hv q => exact isPruned_prune _
  | rounded hv places => exact isPruned_prune _

/-! ## Terms and evaluation -/

variable {v w : Value}

/-- Values that are always the same number have the same coefficients: those of an unknown are
told by making it one and all others zero. -/
theorem coefficient_eq_of_number_eq (h : ∀ x, v.number x = w.number x) (k : Symbol) :
    v.terms.coefficient k = w.terms.coefficient k := by
  have hconstant : v.constant = w.constant := by
    rw [← number_zero, ← number_zero, h]
  cases k with
  | constant => exact hconstant
  | unknown name =>
      have hsingle := h fun a => if a = name then 1 else 0
      rw [number_single, number_single, hconstant] at hsingle
      exact add_right_cancel hsingle

theorem number_eq_of_evaluate_eq
    (h : ∀ assignment : Table String, (∀ name ∈ v.freeUnknowns, name ∈ assignment.keys) →
      (∀ name ∈ w.freeUnknowns, name ∈ assignment.keys) →
        v.evaluate assignment.find? = w.evaluate assignment.find?) (x : String → Rat) :
    v.number x = w.number x := by
  let assignment := Table.tabulate (v.freeUnknowns ++ w.freeUnknowns) x
  have hleft : ∀ name ∈ v.freeUnknowns, name ∈ v.freeUnknowns ++ w.freeUnknowns :=
    fun _ => List.mem_append_left _
  have hright : ∀ name ∈ w.freeUnknowns, name ∈ v.freeUnknowns ++ w.freeUnknowns :=
    fun _ => List.mem_append_right _
  have heval := h assignment (fun name hname => Table.mem_keys_tabulate (hleft name hname) x)
    fun name hname => Table.mem_keys_tabulate (hright name hname) x
  rw [evaluate_eq_some fun name hname => Table.find?_tabulate (hleft name hname) x,
    evaluate_eq_some fun name hname => Table.find?_tabulate (hright name hname) x] at heval
  exact Option.some.inj heval

/-- **Values have a normal form.** However they are made, their terms are other than zero and at
least one, or the constant zero alone. Two values have the same terms just if they evaluate to
the same under every assignment of all unknowns in them. -/
theorem terms_eq_iff_forall_evaluate_eq (hv : v.IsMade) (hw : w.IsMade) :
    IsPruned v.terms ∧ IsPruned w.terms ∧
      (v.terms = w.terms ↔ ∀ assignment : Table String,
        (∀ name ∈ v.freeUnknowns, name ∈ assignment.keys) →
        (∀ name ∈ w.freeUnknowns, name ∈ assignment.keys) →
          v.evaluate assignment.find? = w.evaluate assignment.find?) := by
  refine ⟨hv.isPruned, hw.isPruned, ?_⟩
  constructor
  · intro hterms assignment _ _
    rw [evaluate, hterms]
    rfl
  · intro heval
    apply hv.isPruned.ext_coefficient hw.isPruned
    exact coefficient_eq_of_number_eq (number_eq_of_evaluate_eq heval)

/-- A quarter of `z`, rounded to zero, and `y`. -/
def vanishing : Value := ((free "z").scaled (1 / 4)).rounded 0 + free "y"

theorem terms_eq_iff_forall_evaluate_eq_vanishing :
    vanishing.IsMade ∧ (free "y").IsMade ∧ IsPruned vanishing.terms ∧
      vanishing.terms = (free "y").terms ∧
      ∀ q : Rat, vanishing.evaluate (Table.singleton "y" q).find? =
        (free "y").evaluate (Table.singleton "y" q).find? := by
  have hv : vanishing.IsMade := .add (.rounded (.scaled (.free "z") _) _) (.free "y")
  have hw : (free "y").IsMade := .free "y"
  obtain ⟨hpruned, -, hiff⟩ := terms_eq_iff_forall_evaluate_eq hv hw
  have hterms : vanishing.terms = (free "y").terms := by decide +kernel
  refine ⟨hv, hw, hpruned, hterms, fun q => hiff.mp hterms _ ?_ ?_⟩
  · have hnames : vanishing.freeUnknowns = ["y"] := by decide +kernel
    simp [hnames, Table.singleton, Table.keys]
  · simp [Table.singleton, Table.keys]

end Value

end LinearSystems
