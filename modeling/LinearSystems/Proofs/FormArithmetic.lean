import LinearSystems.Proofs.TableSums
import LinearSystems.Proofs.TableTotals
import LinearSystems.Side

/-!
# Arithmetic of linear forms

Sums and products of linear forms. A product is again linear if at most one of the factors
has unknowns; products of two unknowns are left out. The unknowns of a sum or product are
those of its parts, also where they cancel. Apart from this the usual laws hold: a form times
zero is not the form zero, since it keeps its unknowns.

* `ext_find?`: forms are equal if they assign the same.
* `mul_add`, `mul_assoc`, `add_assoc`: the laws that reading a side needs.
* `mem_unknowns_add`, `mem_unknowns_mul`: the unknowns of a sum and of a product.
* `number_add`, `number_mul`: the numbers of a sum and of a product.
* `number_zero`, `number_single`: the constant and the coefficients, told by numbers.
-/

namespace LinearSystems.LinearForm

/-! ## Forms and operations -/

def ofNumber (q : Rat) : LinearForm := ⟨∅, q⟩

/-- A multiple of an unknown. -/
def ofTerm (name : String) (q : Rat) : LinearForm := ⟨Table.singleton name q, 0⟩

def ofUnknown (name : String) : LinearForm := ofTerm name 1

instance : Add LinearForm :=
  ⟨fun f g => ⟨f.coefficients.merge g.coefficients, f.constant + g.constant⟩⟩

/-- The product of two forms, without products of two unknowns. -/
instance : Mul LinearForm :=
  ⟨fun f g => ⟨(f.coefficients.map (· * g.constant)).merge (g.coefficients.map (· * f.constant)),
    f.constant * g.constant⟩⟩

variable {f g h : LinearForm} {name : String}

@[simp] theorem constant_add : (f + g).constant = f.constant + g.constant := rfl

@[simp] theorem constant_mul : (f * g).constant = f.constant * g.constant := rfl

@[simp] theorem constant_ofNumber (q : Rat) : (ofNumber q).constant = q := rfl

@[simp] theorem constant_ofTerm (q : Rat) : (ofTerm name q).constant = 0 := rfl

@[simp] theorem constant_ofUnknown : (ofUnknown name).constant = 0 := rfl

@[simp] theorem find?_add : (f + g).coefficients.find? name =
    Option.merge (· + ·) (f.coefficients.find? name) (g.coefficients.find? name) :=
  Table.find?_merge _ _ _

@[simp] theorem find?_mul : (f * g).coefficients.find? name =
    Option.merge (· + ·) ((f.coefficients.find? name).map (· * g.constant))
      ((g.coefficients.find? name).map (· * f.constant)) := by
  show ((f.coefficients.map (· * g.constant)).merge _).find? name = _
  rw [Table.find?_merge, Table.find?_map, Table.find?_map]

@[simp] theorem find?_ofNumber (q : Rat) : (ofNumber q).coefficients.find? name = none := rfl

@[simp] theorem find?_ofTerm (x : String) (q : Rat) :
    (ofTerm x q).coefficients.find? name = if name = x then some q else none :=
  Table.find?_singleton x name q

@[simp] theorem find?_ofUnknown (x : String) :
    (ofUnknown x).coefficients.find? name = if name = x then some 1 else none :=
  find?_ofTerm x 1

theorem ext_find? (hfind : ∀ name, f.coefficients.find? name = g.coefficients.find? name)
    (hconstant : f.constant = g.constant) : f = g := by
  obtain ⟨coefficients, constant⟩ := f
  obtain ⟨coefficients', constant'⟩ := g
  obtain rfl : coefficients = coefficients' := Table.ext_find? hfind
  obtain rfl : constant = constant' := hconstant
  rfl

/-! ## Sums as they are read -/

theorem addConstant_eq (f : LinearForm) (q : Rat) : f.addConstant q = f + ofNumber q := by
  apply ext_find?
  · intro name
    simp [addConstant]
  · rfl

theorem addTerm_eq (f : LinearForm) (name : String) (q : Rat) :
    f.addTerm name q = f + ofTerm name q := by
  apply ext_find?
  · intro x
    rw [find?_add, find?_ofTerm, addTerm, Table.add, Table.find?_alter]
    by_cases hx : x = name
    · subst hx
      cases f.coefficients.find? x <;> simp
    · simp [hx]
  · exact (add_zero f.constant).symm

/-! ## Laws -/

protected theorem zero_add (f : LinearForm) : zero + f = f := by
  apply ext_find?
  · intro name
    simp [zero]
  · simp [zero]

protected theorem add_assoc (f g h : LinearForm) : f + g + h = f + (g + h) := by
  apply ext_find?
  · intro name
    simp only [find?_add]
    cases f.coefficients.find? name <;> cases g.coefficients.find? name <;>
      cases h.coefficients.find? name <;> simp [add_assoc]
  · simp [add_assoc]

protected theorem one_mul (f : LinearForm) : ofNumber 1 * f = f := by
  apply ext_find?
  · intro name
    simp
  · simp

protected theorem mul_assoc (f g h : LinearForm) : f * g * h = f * (g * h) := by
  apply ext_find?
  · intro name
    simp only [find?_mul, constant_mul]
    cases f.coefficients.find? name <;> cases g.coefficients.find? name <;>
      cases h.coefficients.find? name <;> simp <;> ring
  · simp [mul_assoc]

protected theorem mul_add (f g h : LinearForm) : f * (g + h) = f * g + f * h := by
  apply ext_find?
  · intro name
    simp only [find?_mul, find?_add, constant_add]
    cases f.coefficients.find? name <;> cases g.coefficients.find? name <;>
      cases h.coefficients.find? name <;> simp <;> ring
  · simp [mul_add]

/-! ## Unknowns -/

theorem mem_unknowns_add : name ∈ (f + g).unknowns ↔ name ∈ f.unknowns ∨ name ∈ g.unknowns :=
  Table.mem_keys_merge_iff

theorem mem_unknowns_mul : name ∈ (f * g).unknowns ↔ name ∈ f.unknowns ∨ name ∈ g.unknowns := by
  show name ∈ ((f.coefficients.map (· * g.constant)).merge _).keys ↔ _
  rw [Table.mem_keys_merge_iff, Table.keys_map, Table.keys_map]
  rfl

theorem mem_unknowns_ofNumber (q : Rat) : name ∉ (ofNumber q).unknowns := List.not_mem_nil

theorem mem_unknowns_ofUnknown {x : String} : x ∈ (ofUnknown name).unknowns ↔ x = name :=
  List.mem_singleton

theorem coefficients_add (hf : f.coefficients = ∅) (hg : g.coefficients = ∅) :
    (f + g).coefficients = ∅ := by
  show f.coefficients.merge g.coefficients = ∅
  rw [hf, hg]
  rfl

theorem coefficients_mul (hf : f.coefficients = ∅) (hg : g.coefficients = ∅) :
    (f * g).coefficients = ∅ := by
  show (f.coefficients.map (· * g.constant)).merge (g.coefficients.map (· * f.constant)) = ∅
  rw [hf, hg]
  rfl

/-! ## Numbers -/

/-- The number that a form is, where every unknown is a number. -/
def number (x : String → Rat) (f : LinearForm) : Rat := f.coefficients.total x + f.constant

variable (x : String → Rat)

@[simp] theorem number_ofNumber (q : Rat) : (ofNumber q).number x = q := zero_add q

@[simp] theorem number_ofUnknown : (ofUnknown name).number x = x name := by
  rw [number, ofUnknown, ofTerm, Table.total_singleton, one_mul, add_zero]

@[simp] theorem number_add : (f + g).number x = f.number x + g.number x := by
  have htotal : (f + g).coefficients.total x = f.coefficients.total x + g.coefficients.total x :=
    Table.total_merge x _ _
  rw [number, htotal, constant_add, number, number]
  ring

/-- The number of a product, if one of the factors has no unknowns. -/
theorem number_mul (hnone : f.coefficients = ∅ ∨ g.coefficients = ∅) :
    (f * g).number x = f.number x * g.number x := by
  have htotal : (f * g).coefficients.total x =
      f.coefficients.total x * g.constant + g.coefficients.total x * f.constant := by
    rw [← Table.total_map_mul, ← Table.total_map_mul]
    exact Table.total_merge x _ _
  have hempty : Table.total x (∅ : Table String) = 0 := rfl
  rw [number, htotal, constant_mul, number, number]
  rcases hnone with hnone | hnone <;> rw [hnone, hempty] <;> ring

/-! ## Forms by their numbers -/

theorem number_zero (f : LinearForm) : f.number (fun _ => 0) = f.constant := by
  rw [number, Table.total_zero_weight, zero_add]

theorem number_single (f : LinearForm) (name : String) :
    f.number (fun a => if a = name then 1 else 0) = f.coefficient name + f.constant := by
  rw [number, Table.total_single]
  rfl

end LinearSystems.LinearForm
