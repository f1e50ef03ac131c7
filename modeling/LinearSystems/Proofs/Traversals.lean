import Mathlib.Data.List.FinRange
import Mathlib.Data.List.Forall2

/-!
# Steps that can fail

Computations made of steps each of which can fail, by what their steps give. A list whose
elements are computed one by one is a relation between the elements of two lists.

* `bind_eq_ok_iff`: one step after another.
* `mapM_eq_ok_iff`: a traversal succeeds just if each of its steps does.
* `exists_mapM_eq_ok`: a traversal whose steps succeed gives related elements.
* `mapM_eq_error`: a traversal that fails, where steps can fail in one way only.
* `exists_mem_of_mapM_eq_error`: a traversal fails with a step of its own.
* `mapM_eq_error_iff`: where steps can fail in one way only, a traversal fails just if a step does.
* `forall₂_ofFn`: related elements, place by place.
-/

namespace LinearSystems

variable {α β ε : Type}

theorem bind_eq_ok_iff {step : Except ε α} {next : α → Except ε β} {b : β} :
    step >>= next = .ok b ↔ ∃ a, step = .ok a ∧ next a = .ok b := by
  cases step <;> simp [bind, Except.bind]

theorem mapError_eq_ok_iff {ε' : Type} {step : Except ε α} {f : ε → ε'} {a : α} :
    step.mapError f = .ok a ↔ step = .ok a := by
  cases step <;> simp [Except.mapError]

theorem map_eq_error_iff {step : Except ε α} {f : α → β} {e : ε} :
    step.map f = .error e ↔ step = .error e := by
  cases step <;> simp [Except.map]

theorem mapM_eq_ok_iff {f : α → Except ε β} {l : List α} {l' : List β} :
    l.mapM f = .ok l' ↔ List.Forall₂ (fun a b => f a = .ok b) l l' := by
  induction l generalizing l' with
  | nil =>
      rw [List.forall₂_nil_left_iff, eq_comm (a := l')]
      exact Except.ok.injEq [] l' ▸ Iff.rfl
  | cons a l ih =>
      rw [List.mapM_cons, List.forall₂_cons_left_iff, bind_eq_ok_iff]
      simp only [bind_eq_ok_iff, ih, pure, Except.pure, Except.ok.injEq, eq_comm (b := l'),
        exists_and_left]

theorem exists_mapM_eq_ok {f : α → Except ε β} {R : α → β → Prop} {l : List α}
    (h : ∀ a ∈ l, ∃ b, f a = .ok b ∧ R a b) :
    ∃ l', l.mapM f = .ok l' ∧ List.Forall₂ R l l' := by
  induction l with
  | nil => exact ⟨[], rfl, .nil⟩
  | cons a l ih =>
      rw [List.forall_mem_cons] at h
      obtain ⟨b, hb, hab⟩ := h.1
      obtain ⟨l', hl', hall⟩ := ih h.2
      refine ⟨b :: l', ?_, .cons hab hall⟩
      rw [List.mapM_cons, hb, hl']
      rfl

theorem mapM_congr_left {f g : α → Except ε β} {l : List α} (h : ∀ a ∈ l, f a = g a) :
    l.mapM f = l.mapM g := by
  induction l with
  | nil => rfl
  | cons a l ih =>
      rw [List.forall_mem_cons] at h
      rw [List.mapM_cons, List.mapM_cons, h.1, ih h.2]

theorem mapM_eq_error {f : α → Except ε β} {l : List α} {fault : ε}
    (hfault : ∀ a ∈ l, ∀ e, f a = .error e → e = fault) {a : α} (ha : a ∈ l) {e : ε}
    (hfails : f a = .error e) : l.mapM f = .error fault := by
  induction l with
  | nil => cases ha
  | cons b l ih =>
      rw [List.forall_mem_cons] at hfault
      rw [List.mapM_cons]
      cases hb : f b with
      | error e' =>
          rw [hfault.1 e' hb]
          rfl
      | ok c =>
          have hne : a ≠ b := by
            rintro rfl
            rw [hfails] at hb
            cases hb
          rw [ih hfault.2 (List.mem_of_ne_of_mem hne ha)]
          rfl

theorem exists_mem_of_mapM_eq_error {f : α → Except ε β} {l : List α} {e : ε}
    (h : l.mapM f = .error e) : ∃ a ∈ l, f a = .error e := by
  induction l with
  | nil => cases h
  | cons a l ih =>
      rw [List.mapM_cons] at h
      cases ha : f a with
      | error e' =>
          rw [ha] at h
          cases h
          exact ⟨a, List.mem_cons_self, ha⟩
      | ok b =>
          cases hl : l.mapM f with
          | error e' =>
              rw [ha, hl] at h
              cases h
              obtain ⟨a', ha', he⟩ := ih hl
              exact ⟨a', List.mem_cons_of_mem a ha', he⟩
          | ok l' =>
              rw [ha, hl] at h
              cases h

theorem mapM_eq_error_iff {f : α → Except ε β} {l : List α} {Fails : α → Prop} {p : Prop}
    {fault : ε} (h : ∀ a ∈ l, ∀ e, f a = .error e ↔ Fails a ∧ p ∧ e = fault) {e : ε} :
    l.mapM f = .error e ↔ (∃ a ∈ l, Fails a) ∧ p ∧ e = fault := by
  constructor
  · intro hmap
    obtain ⟨a, ha, hfa⟩ := exists_mem_of_mapM_eq_error hmap
    obtain ⟨hfails, hfault⟩ := (h a ha e).mp hfa
    exact ⟨⟨a, ha, hfails⟩, hfault⟩
  · rintro ⟨⟨a, ha, hfails⟩, hp, rfl⟩
    exact mapM_eq_error (fun b hb e' hfb => ((h b hb e').mp hfb).2.2) ha
      ((h a ha e).mpr ⟨hfails, hp, rfl⟩)

theorem exists_mem_of_forall₂ {R : α → β → Prop} {l : List α} {l' : List β}
    (h : List.Forall₂ R l l') {b : β} (hb : b ∈ l') : ∃ a ∈ l, R a b := by
  induction h with
  | nil => cases hb
  | @cons a b' l l' hab _ ih =>
      rcases List.mem_cons.mp hb with rfl | hb
      · exact ⟨a, List.mem_cons_self, hab⟩
      · obtain ⟨a', ha', hab'⟩ := ih hb
        exact ⟨a', List.mem_cons_of_mem a ha', hab'⟩

theorem forall₂_ofFn {R : α → β → Prop} {n : Nat} {f : Fin n → α} {g : Fin n → β}
    (h : ∀ i, R (f i) (g i)) : List.Forall₂ R (List.ofFn f) (List.ofFn g) := by
  rw [List.ofFn_eq_map, List.ofFn_eq_map, List.forall₂_map_left_iff, List.forall₂_map_right_iff,
    List.forall₂_same]
  exact fun i _ => h i

end LinearSystems
