import LinearSystems.Key

/-!
# Tables of numbers

A `Table κ` assigns numbers to finitely many keys and lists them in the order of the
keys. A key with the number zero is still there: `find?` tells it from a key that is
not.

* `find?_alter`: what a change at one key does to every key.
* `ext_find?`: a table is determined by what it assigns.
-/

namespace LinearSystems

/-- Numbers for finitely many keys, listed in the order of the keys. -/
structure Table (κ : Type) [Key κ] where
  entries : List (κ × Rat)
  sorted : entries.Pairwise (fun a b => Key.before a.1 b.1 = true)

namespace Table

theorem lookup_cons_of_ne {κ : Type} [DecidableEq κ] {x a : κ} {q : Rat} {l : List (κ × Rat)}
    (h : x ≠ a) : ((a, q) :: l).lookup x = l.lookup x := by
  rw [List.lookup_cons, beq_eq_false_iff_ne.mpr h]

variable {κ : Type} [Key κ]

theorem ext_entries {s t : Table κ} (h : s.entries = t.entries) : s = t := by
  cases s
  cases t
  cases h
  rfl

instance [DecidableEq κ] : DecidableEq (Table κ) := fun s t =>
  if h : s.entries = t.entries then isTrue (ext_entries h)
  else isFalse (fun hst => h (hst ▸ rfl))

instance : EmptyCollection (Table κ) := ⟨⟨[], List.Pairwise.nil⟩⟩

def keys (t : Table κ) : List κ := t.entries.map Prod.fst

/-- The sum of the numbers, each times the weight of its key, if all keys have a weight. -/
def evaluate (weight : κ → Option Rat) (t : Table κ) : Option Rat :=
  go t.entries
where
  go : List (κ × Rat) → Option Rat
    | [] => some 0
    | (k, q) :: rest => do
        let w ← weight k
        let total ← go rest
        return q * w + total

/-- The same keys, each with a number made from its own. -/
def map (f : Rat → Rat) (t : Table κ) : Table κ where
  entries := t.entries.map (fun e => (e.1, f e.2))
  sorted := t.sorted.map _ (fun _ _ h => h)

def filter (keep : Rat → Bool) (t : Table κ) : Table κ where
  entries := t.entries.filter (fun e => keep e.2)
  sorted := t.sorted.filter _

def singleton (k : κ) (q : Rat) : Table κ := ⟨[(k, q)], List.pairwise_singleton _ _⟩

variable [DecidableEq κ]

/-- The number of a key, if the key is there. -/
def find? (t : Table κ) (k : κ) : Option Rat := t.entries.lookup k

/-- The number of a key, zero if the key is not there. -/
def coefficient (t : Table κ) (k : κ) : Rat := (t.find? k).getD 0

/-! ## Changes at one key -/

/-- The entries after a change at one key; `change` is given the number found there. -/
def alterEntries (k : κ) (change : Option Rat → Rat) : List (κ × Rat) → List (κ × Rat)
  | [] => [(k, change none)]
  | (a, q) :: rest =>
    if k = a then (a, change (some q)) :: rest
    else if Key.before k a then (k, change none) :: (a, q) :: rest
    else (a, q) :: alterEntries k change rest

variable {k x : κ} {change : Option Rat → Rat} {l : List (κ × Rat)}

theorem fst_of_mem_alterEntries {e : κ × Rat} (h : e ∈ alterEntries k change l) :
    e.1 = k ∨ ∃ q, (e.1, q) ∈ l := by
  induction l with
  | nil => exact Or.inl (by rw [List.mem_singleton.mp h])
  | cons head rest ih =>
      obtain ⟨a, q⟩ := head
      rw [alterEntries] at h
      split at h
      · next hk =>
        rcases List.mem_cons.mp h with rfl | h
        · exact Or.inl hk.symm
        · exact Or.inr ⟨e.2, List.mem_cons_of_mem _ h⟩
      · split at h
        · rcases List.mem_cons.mp h with rfl | h
          · exact Or.inl rfl
          · exact Or.inr ⟨e.2, h⟩
        · rcases List.mem_cons.mp h with rfl | h
          · exact Or.inr ⟨q, List.mem_cons_self⟩
          · obtain hk | ⟨r, hr⟩ := ih h
            · exact Or.inl hk
            · exact Or.inr ⟨r, List.mem_cons_of_mem _ hr⟩

theorem alterEntries_sorted (h : l.Pairwise (fun a b => Key.before a.1 b.1 = true)) :
    (alterEntries k change l).Pairwise (fun a b => Key.before a.1 b.1 = true) := by
  induction l with
  | nil => exact List.pairwise_singleton _ _
  | cons head rest ih =>
      obtain ⟨a, q⟩ := head
      obtain ⟨ha, hrest⟩ := List.pairwise_cons.mp h
      rw [alterEntries]
      split
      · exact List.pairwise_cons.mpr ⟨ha, hrest⟩
      · next hne =>
        split
        · next hka =>
          refine List.pairwise_cons.mpr ⟨fun e he => ?_, h⟩
          rcases List.mem_cons.mp he with rfl | he
          · exact hka
          · exact Key.before_trans hka (ha e he)
        · next hka =>
          refine List.pairwise_cons.mpr ⟨fun e he => ?_, ih hrest⟩
          obtain hk | ⟨r, hr⟩ := fst_of_mem_alterEntries he
          · rw [hk]
            exact (Key.before_or_before hne).resolve_left hka
          · exact ha (e.1, r) hr

/-- The table after a change at one key; `change` is given the number found there. -/
def alter (t : Table κ) (k : κ) (change : Option Rat → Rat) : Table κ where
  entries := alterEntries k change t.entries
  sorted := alterEntries_sorted t.sorted

/-- The table with this number for the key. -/
def insert (t : Table κ) (k : κ) (q : Rat) : Table κ := t.alter k (fun _ => q)

/-- The table with this much added at the key. -/
def add (t : Table κ) (k : κ) (q : Rat) : Table κ := t.alter k (fun found => found.getD 0 + q)

/-- The sum of two tables, with the keys of both. -/
def merge (s t : Table κ) : Table κ := t.entries.foldl (fun sum e => sum.add e.1 e.2) s

/-- The table of a list of pairs; a later pair replaces an earlier one with the same key. -/
def ofList (pairs : List (κ × Rat)) : Table κ :=
  pairs.foldl (fun t e => t.insert e.1 e.2) ∅

/-! ## What a table assigns -/

theorem lookup_eq_none_of_before (h : ∀ e ∈ l, Key.before x e.1 = true) : l.lookup x = none := by
  refine List.lookup_eq_none_iff.mpr (fun e he => ?_)
  simpa using Key.ne_of_before (h e he)

theorem lookup_alterEntries (h : l.Pairwise (fun a b => Key.before a.1 b.1 = true)) :
    (alterEntries k change l).lookup x =
      if x = k then some (change (l.lookup k)) else l.lookup x := by
  induction l with
  | nil => by_cases hx : x = k <;> simp [alterEntries, hx]
  | cons head rest ih =>
      obtain ⟨a, q⟩ := head
      obtain ⟨ha, hrest⟩ := List.pairwise_cons.mp h
      rw [alterEntries]
      split
      · next hk =>
        subst hk
        by_cases hx : x = k
        · simp [hx]
        · rw [lookup_cons_of_ne hx, lookup_cons_of_ne hx, if_neg hx]
      · next hne =>
        split
        · next hka =>
          have hnone : ((a, q) :: rest).lookup k = none := by
            refine lookup_eq_none_of_before (fun e he => ?_)
            rcases List.mem_cons.mp he with rfl | he
            · exact hka
            · exact Key.before_trans hka (ha e he)
          by_cases hx : x = k
          · simp [hx, hnone]
          · rw [lookup_cons_of_ne hx, if_neg hx]
        · by_cases hxa : x = a
          · simp [hxa, Ne.symm hne]
          · rw [lookup_cons_of_ne hxa, lookup_cons_of_ne hxa, lookup_cons_of_ne hne, ih hrest]

@[simp] theorem find?_alter (t : Table κ) (k x : κ) (change : Option Rat → Rat) :
    (t.alter k change).find? x = if x = k then some (change (t.find? k)) else t.find? x :=
  lookup_alterEntries t.sorted

theorem ext_lookup {s t : List (κ × Rat)}
    (hs : s.Pairwise (fun a b => Key.before a.1 b.1 = true))
    (ht : t.Pairwise (fun a b => Key.before a.1 b.1 = true))
    (h : ∀ k, s.lookup k = t.lookup k) : s = t := by
  induction s generalizing t with
  | nil =>
      obtain _ | ⟨⟨b, r⟩, t⟩ := t
      · rfl
      · simpa using h b
  | cons head s ih =>
      obtain ⟨a, q⟩ := head
      obtain _ | ⟨⟨b, r⟩, t⟩ := t
      · simpa using h a
      obtain ⟨ha, hs⟩ := List.pairwise_cons.mp hs
      obtain ⟨hb, htail⟩ := List.pairwise_cons.mp ht
      -- A key that comes before all others of one list would be missing there.
      have hab : a = b := by
        refine Decidable.byContradiction (fun hne => ?_)
        rcases Key.before_or_before hne with hlt | hlt
        · have hnone : ((b, r) :: t).lookup a = none := by
            refine lookup_eq_none_of_before (fun e he => ?_)
            rcases List.mem_cons.mp he with rfl | he
            · exact hlt
            · exact Key.before_trans hlt (hb e he)
          have := h a
          rw [hnone] at this
          simp at this
        · have hnone : ((a, q) :: s).lookup b = none := by
            refine lookup_eq_none_of_before (fun e he => ?_)
            rcases List.mem_cons.mp he with rfl | he
            · exact hlt
            · exact Key.before_trans hlt (ha e he)
          have := h b
          rw [hnone] at this
          simp at this
      subst hab
      have hqr : q = r := by simpa using h a
      subst hqr
      refine congrArg _ (ih hs htail (fun k => ?_))
      by_cases hk : k = a
      · subst hk
        rw [lookup_eq_none_of_before ha, lookup_eq_none_of_before hb]
      · have := h k
        rwa [lookup_cons_of_ne hk, lookup_cons_of_ne hk] at this

theorem ext_find? {s t : Table κ} (h : ∀ k, s.find? k = t.find? k) : s = t :=
  ext_entries (ext_lookup s.sorted t.sorted h)

end Table

end LinearSystems
