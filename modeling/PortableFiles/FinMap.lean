set_option autoImplicit false

/-!
# Finite maps

A finite map from keys with decidable equality to values, kept as an association list.  The
directories and the tables of a file system are values of this type.  Its meaning is the view
`get?`; every operation is described through that view, and nothing else needs to be unfolded.
`fresh` gives a key that a map on natural numbers does not hold, without any invariant.
-/

namespace PortableFiles

/-- A finite map.  Where a key occurs twice, its first entry counts. -/
structure FinMap (κ α : Type) where
  entries : List (κ × α)
  deriving Repr, DecidableEq, Inhabited

namespace FinMap

variable {κ α : Type} [DecidableEq κ]

/-- The map without entries. -/
def empty : FinMap κ α := ⟨[]⟩

/-- The value of the first pair whose key is `k`. -/
def lookup (k : κ) : List (κ × α) → Option α
  | [] => none
  | e :: rest => if e.1 = k then some e.2 else lookup k rest

/-- The value held for `k`. -/
def get? (m : FinMap κ α) (k : κ) : Option α := lookup k m.entries

/-- Whether `k` has a value. -/
def contains (m : FinMap κ α) (k : κ) : Bool := (m.get? k).isSome

/-- The map without `k`. -/
def erase (m : FinMap κ α) (k : κ) : FinMap κ α := ⟨m.entries.filter fun e => e.1 ≠ k⟩

/-- The map in which `k` has the value `v`. -/
def insert (m : FinMap κ α) (k : κ) (v : α) : FinMap κ α := ⟨(k, v) :: (m.erase k).entries⟩

/-- The map with `f` applied to every value. -/
def mapValues (f : α → α) (m : FinMap κ α) : FinMap κ α := ⟨m.entries.map fun e => (e.1, f e.2)⟩

/-- The map in which the value of `k`, if there is one, is replaced by its image under `f`. -/
def modify (m : FinMap κ α) (k : κ) (f : α → α) : FinMap κ α :=
  match m.get? k with
  | some v => m.insert k (f v)
  | none => m

/-- The first key whose value satisfies `p`. -/
def findKey? (m : FinMap κ α) (p : α → Bool) : Option κ :=
  (m.entries.find? fun e => p e.2).map (·.1)

/-- The keys, in no particular order. -/
def keys (m : FinMap κ α) : List κ := m.entries.map (·.1)

/-! ## Operations through the view -/

@[simp] theorem get?_empty (k : κ) : (empty : FinMap κ α).get? k = none := rfl

theorem lookup_filter_ne (k k' : κ) (l : List (κ × α)) :
    lookup k' (l.filter fun e => e.1 ≠ k) = if k' = k then none else lookup k' l := by
  induction l with
  | nil => simp [lookup]
  | cons e rest ih =>
    by_cases h : e.1 = k
    · rw [List.filter_cons_of_neg (by simp [h]), ih]
      by_cases hk : k' = k
      · simp [hk]
      · have : ¬ e.1 = k' := fun he => hk (he.symm.trans h)
        simp [hk, lookup, this]
    · rw [List.filter_cons_of_pos (by simp [h]), lookup, ih, lookup]
      by_cases he : e.1 = k'
      · have hk : ¬ k' = k := fun hk => h (he.trans hk)
        simp [he, hk]
      · simp [he]

theorem get?_erase (m : FinMap κ α) (k k' : κ) :
    (m.erase k).get? k' = if k' = k then none else m.get? k' :=
  lookup_filter_ne k k' m.entries

theorem get?_insert (m : FinMap κ α) (k k' : κ) (v : α) :
    (m.insert k v).get? k' = if k' = k then some v else m.get? k' := by
  by_cases h : k' = k
  · subst h
    simp [insert, get?, lookup]
  · have hk : ¬ k = k' := fun e => h e.symm
    have := m.get?_erase k k'
    simp [insert, get?, lookup, hk, h] at this ⊢
    exact this

@[simp] theorem get?_insert_self (m : FinMap κ α) (k : κ) (v : α) :
    (m.insert k v).get? k = some v := by simp [get?_insert]

@[simp] theorem get?_erase_self (m : FinMap κ α) (k : κ) : (m.erase k).get? k = none := by
  simp [get?_erase]

theorem get?_insert_of_ne (m : FinMap κ α) {k k' : κ} (v : α) (h : k' ≠ k) :
    (m.insert k v).get? k' = m.get? k' := by simp [get?_insert, h]

theorem get?_erase_of_ne (m : FinMap κ α) {k k' : κ} (h : k' ≠ k) :
    (m.erase k).get? k' = m.get? k' := by simp [get?_erase, h]

theorem get?_mapValues (f : α → α) (m : FinMap κ α) (k : κ) :
    (m.mapValues f).get? k = (m.get? k).map f := by
  obtain ⟨l⟩ := m
  simp only [mapValues, get?]
  induction l with
  | nil => rfl
  | cons e rest ih => by_cases h : e.1 = k <;> simp [lookup, h, ih]

theorem get?_modify (m : FinMap κ α) (k k' : κ) (f : α → α) :
    (m.modify k f).get? k' = if k' = k then (m.get? k).map f else m.get? k' := by
  unfold modify
  cases hk : m.get? k with
  | none =>
    by_cases h : k' = k
    · simp [h, hk]
    · simp [h]
  | some v =>
    rw [get?_insert]
    rfl

/-- A value that is held is an entry. -/
theorem mem_entries_of_get?_eq_some {m : FinMap κ α} {k : κ} {v : α} (h : m.get? k = some v) :
    (k, v) ∈ m.entries := by
  obtain ⟨l⟩ := m
  simp only [get?] at h ⊢
  induction l with
  | nil => cases h
  | cons e rest ih =>
    unfold lookup at h
    split at h
    · rename_i hk
      cases h
      rw [← hk]
      exact List.mem_cons_self
    · exact List.mem_cons_of_mem _ (ih h)

/-! ## Keys that are not held -/

theorem ne_of_lookup_eq_none {k : κ} {l : List (κ × α)} (h : lookup k l = none) :
    ∀ e ∈ l, e.1 ≠ k := by
  induction l with
  | nil => simp
  | cons e rest ih =>
    unfold lookup at h
    split at h
    · cases h
    · rename_i hne
      intro x hx
      rcases List.mem_cons.1 hx with rfl | hx
      · exact hne
      · exact ih h x hx

/-- Removing a key that is not held changes nothing. -/
theorem erase_of_get?_eq_none {m : FinMap κ α} {k : κ} (h : m.get? k = none) : m.erase k = m := by
  have hfilter : m.entries.filter (fun e => e.1 ≠ k) = m.entries := by
    rw [List.filter_eq_self]
    intro e he
    simpa using ne_of_lookup_eq_none h e he
  rw [erase, hfilter]

/-- A new key that is removed again leaves no trace. -/
theorem erase_insert {m : FinMap κ α} {k : κ} (v : α) (h : m.get? k = none) :
    (m.insert k v).erase k = m := by
  have hsame : (m.insert k v).erase k = m.erase k := by simp [insert, erase]
  rw [hsame, erase_of_get?_eq_none h]

/-- A new key is not found where its value is not looked for. -/
theorem findKey?_insert {m : FinMap κ α} {k : κ} {v : α} {p : α → Bool} (h : m.get? k = none)
    (hv : p v = false) : (m.insert k v).findKey? p = m.findKey? p := by
  rw [findKey?, insert, erase_of_get?_eq_none h, List.find?_cons_of_neg (by simp [hv]), findKey?]

/-! ## A key that is not in use -/

/-- A number above every key of the list. -/
def above : List (Nat × α) → Nat
  | [] => 0
  | e :: rest => max (e.1 + 1) (above rest)

/-- A key that the map does not hold. -/
def fresh (m : FinMap Nat α) : Nat := above m.entries

theorem lookup_eq_none_of_above_le (l : List (Nat × α)) (k : Nat) (h : above l ≤ k) :
    lookup k l = none := by
  induction l with
  | nil => rfl
  | cons e rest ih =>
    simp only [above, Nat.max_le] at h
    have : ¬ e.1 = k := by omega
    simp [lookup, this, ih h.2]

@[simp] theorem get?_fresh (m : FinMap Nat α) : m.get? m.fresh = none :=
  lookup_eq_none_of_above_le m.entries _ (Nat.le_refl _)

end FinMap

end PortableFiles
