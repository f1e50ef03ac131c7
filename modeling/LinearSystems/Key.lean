/-!
# Keys

A key is what a table is sorted by. `Key.before` is a strict order that decides
between any two different keys. Names are ordered as sequences of code points.

* `Key.before_asymm`: of two keys at most one comes before the other.
* `insertKey_sorted`, `mem_insertKey`: inserting into a sorted list of keys keeps it
  sorted and adds the key.
-/

namespace LinearSystems

/-- A strict linear order, as a test. -/
class Key (κ : Type) where
  before : κ → κ → Bool
  before_irrefl : ∀ a, before a a = false
  before_trans : ∀ {a b c}, before a b = true → before b c = true → before a c = true
  before_or_before : ∀ {a b}, a ≠ b → before a b = true ∨ before b a = true

namespace Key

variable {κ : Type} [Key κ]

theorem before_asymm {a b : κ} (h : before a b = true) : before b a = false := by
  refine Bool.eq_false_iff.mpr (fun hba => ?_)
  have := before_trans h hba
  rw [before_irrefl] at this
  cases this

theorem ne_of_before {a b : κ} (h : before a b = true) : a ≠ b := by
  rintro rfl
  rw [before_irrefl] at h
  cases h

end Key

/-! ## The order of names -/

/-- Whether one text comes before another, by the first code point in which they differ. -/
def textBefore : List Char → List Char → Bool
  | _, [] => false
  | [], _ :: _ => true
  | a :: as, b :: bs => if a = b then textBefore as bs else a.toNat < b.toNat

theorem textBefore_irrefl (a : List Char) : textBefore a a = false := by
  induction a with
  | nil => rfl
  | cons c rest ih => simp [textBefore, ih]

theorem textBefore_trans {a b c : List Char} (hab : textBefore a b = true)
    (hbc : textBefore b c = true) : textBefore a c = true := by
  induction a generalizing b c with
  | nil =>
      cases c with
      | nil => cases b <;> simp [textBefore] at hbc
      | cons => rfl
  | cons x xs ih =>
      obtain _ | ⟨y, ys⟩ := b
      · simp [textBefore] at hab
      obtain _ | ⟨z, zs⟩ := c
      · simp [textBefore] at hbc
      simp only [textBefore] at hab hbc ⊢
      -- The first difference of `a` and `c` is the earlier of the two differences.
      by_cases hxy : x = y <;> by_cases hyz : y = z
      · subst hxy hyz
        simp only [if_true] at hab hbc ⊢
        exact ih hab hbc
      · subst hxy
        simpa [hyz] using hbc
      · subst hyz
        simpa [hxy] using hab
      · simp only [hxy, hyz, if_false, decide_eq_true_eq] at hab hbc
        have hxz : x ≠ z := by
          rintro rfl
          omega
        simp only [hxz, if_false, decide_eq_true_eq]
        omega

theorem textBefore_or_textBefore {a b : List Char} (h : a ≠ b) :
    textBefore a b = true ∨ textBefore b a = true := by
  induction a generalizing b with
  | nil =>
      cases b with
      | nil => exact absurd rfl h
      | cons => exact Or.inl rfl
  | cons x xs ih =>
      obtain _ | ⟨y, ys⟩ := b
      · exact Or.inr rfl
      by_cases hxy : x = y
      · subst hxy
        simpa [textBefore] using ih (fun hs => h (hs ▸ rfl))
      · have hn : x.toNat ≠ y.toNat := fun hn => hxy (Char.toNat_inj.mp hn)
        simp only [textBefore, hxy, Ne.symm hxy, if_false, decide_eq_true_eq]
        omega

instance : Key String where
  before a b := textBefore a.toList b.toList
  before_irrefl a := textBefore_irrefl a.toList
  before_trans := textBefore_trans
  before_or_before h := textBefore_or_textBefore (fun hl => h (String.toList_inj.mp hl))

/-! ## Sorted lists of keys -/

section Insert

variable {κ : Type} [Key κ] [DecidableEq κ]

/-- The sorted list with one more key. -/
def insertKey (k : κ) : List κ → List κ
  | [] => [k]
  | a :: rest =>
    if k = a then a :: rest
    else if Key.before k a then k :: a :: rest
    else a :: insertKey k rest

theorem mem_insertKey {k x : κ} {l : List κ} : x ∈ insertKey k l ↔ x = k ∨ x ∈ l := by
  induction l with
  | nil => simp [insertKey]
  | cons a rest ih =>
      rw [insertKey]
      split
      · next h => simp [h]
      · split
        · simp
        · simp only [List.mem_cons, ih]
          constructor <;> rintro (h | h | h) <;> simp [h]

theorem insertKey_sorted {k : κ} {l : List κ}
    (h : l.Pairwise (fun a b => Key.before a b = true)) :
    (insertKey k l).Pairwise (fun a b => Key.before a b = true) := by
  induction l with
  | nil => simp [insertKey]
  | cons a rest ih =>
      obtain ⟨ha, hrest⟩ := List.pairwise_cons.mp h
      rw [insertKey]
      split
      · exact h
      · next hne =>
        split
        · next hka =>
          refine List.pairwise_cons.mpr ⟨fun x hx => ?_, h⟩
          rcases List.mem_cons.mp hx with rfl | hx
          · exact hka
          · exact Key.before_trans hka (ha x hx)
        · next hka =>
          refine List.pairwise_cons.mpr ⟨fun x hx => ?_, ih hrest⟩
          rcases mem_insertKey.mp hx with rfl | hx
          · exact (Key.before_or_before hne).resolve_left hka
          · exact ha x hx

/-- The keys of a list in order, each once. -/
def sortedKeys (l : List κ) : List κ := l.foldr insertKey []

theorem mem_sortedKeys {x : κ} {l : List κ} : x ∈ sortedKeys l ↔ x ∈ l := by
  induction l with
  | nil => rfl
  | cons a rest ih =>
      rw [sortedKeys, List.foldr_cons, mem_insertKey, List.mem_cons]
      exact or_congr_right ih

theorem sortedKeys_sorted (l : List κ) :
    (sortedKeys l).Pairwise (fun a b => Key.before a b = true) := by
  induction l with
  | nil => exact List.Pairwise.nil
  | cons a rest ih => exact insertKey_sorted ih

end Insert

end LinearSystems
