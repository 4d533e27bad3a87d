namespace SiteFusion

structure Table (κ ν : Type) where
  entries : List (κ × ν)
  nodup : (entries.map Prod.fst).Nodup
deriving DecidableEq

namespace Table

variable {κ ν μ : Type}

def empty : Table κ ν := ⟨[], List.nodup_nil⟩

instance : EmptyCollection (Table κ ν) := ⟨empty⟩

instance : Inhabited (Table κ ν) := ⟨empty⟩

def keys (t : Table κ ν) : List κ := t.entries.map Prod.fst

def values (t : Table κ ν) : List ν := t.entries.map Prod.snd

def size (t : Table κ ν) : Nat := t.entries.length

def isEmpty (t : Table κ ν) : Bool := t.entries.isEmpty

theorem keys_mapEntries (f : κ → ν → μ) (l : List (κ × ν)) :
    (l.map fun e => (e.1, f e.1 e.2)).map Prod.fst = l.map Prod.fst := by
  induction l with
  | nil => rfl
  | cons e l ih => simp [ih]

def mapWithKey (t : Table κ ν) (f : κ → ν → μ) : Table κ μ :=
  ⟨t.entries.map fun e => (e.1, f e.1 e.2), by rw [keys_mapEntries]; exact t.nodup⟩

def map (t : Table κ ν) (f : ν → μ) : Table κ μ := t.mapWithKey fun _ v => f v

def filter (t : Table κ ν) (p : κ → ν → Bool) : Table κ ν :=
  ⟨t.entries.filter fun e => p e.1 e.2,
    t.nodup.sublist (List.Sublist.map _ List.filter_sublist)⟩

variable [DecidableEq κ]

def get? (t : Table κ ν) (k : κ) : Option ν := t.entries.lookup k

def contains (t : Table κ ν) (k : κ) : Bool := (t.get? k).isSome

def erase (t : Table κ ν) (k : κ) : Table κ ν := t.filter fun k' _ => k' != k

def modify (t : Table κ ν) (k : κ) (f : ν → ν) : Table κ ν :=
  t.mapWithKey fun k' v => if k' = k then f v else v

def insertEntry (k : κ) (v : ν) : List (κ × ν) → List (κ × ν)
  | [] => [(k, v)]
  | e :: l => if e.1 = k then (k, v) :: l else e :: insertEntry k v l

theorem mem_keys_insertEntry {k k' : κ} {v : ν} {l : List (κ × ν)}
    (h : k' ∈ (insertEntry k v l).map Prod.fst) : k' = k ∨ k' ∈ l.map Prod.fst := by
  induction l with
  | nil => simpa [insertEntry] using h
  | cons e l ih =>
    by_cases he : e.1 = k
    · simp only [insertEntry, he, ↓reduceIte, List.map_cons, List.mem_cons] at h
      rcases h with h | h
      · exact .inl h
      · exact .inr (by simp [h])
    · simp only [insertEntry, he, ↓reduceIte, List.map_cons, List.mem_cons] at h
      rcases h with h | h
      · exact .inr (by simp [h])
      · rcases ih h with h | h
        · exact .inl h
        · exact .inr (by simp [h])

theorem nodup_keys_insertEntry (k : κ) (v : ν) (l : List (κ × ν))
    (h : (l.map Prod.fst).Nodup) : ((insertEntry k v l).map Prod.fst).Nodup := by
  induction l with
  | nil => simp [insertEntry]
  | cons e l ih =>
    rw [List.map_cons, List.nodup_cons] at h
    by_cases he : e.1 = k
    · simp only [insertEntry, he, ↓reduceIte, List.map_cons, List.nodup_cons]
      exact ⟨he ▸ h.1, h.2⟩
    · simp only [insertEntry, he, ↓reduceIte, List.map_cons, List.nodup_cons]
      refine ⟨fun hm => ?_, ih h.2⟩
      rcases mem_keys_insertEntry hm with hm | hm
      · exact he hm
      · exact h.1 hm

/-- Put a value under a key: in the place of the old value if there is one, else at the end. -/
def insert (t : Table κ ν) (k : κ) (v : ν) : Table κ ν :=
  ⟨insertEntry k v t.entries, nodup_keys_insertEntry k v t.entries t.nodup⟩

def ofList (l : List (κ × ν)) : Table κ ν := l.foldl (fun t e => t.insert e.1 e.2) empty

theorem lookup_cons_ite (k a : κ) (v : ν) (l : List (κ × ν)) :
    ((a, v) :: l).lookup k = if k = a then some v else l.lookup k := by
  by_cases h : k = a
  · simp [h]
  · simp [List.lookup_cons, h, beq_eq_false_iff_ne.mpr h]

theorem lookup_insertEntry (k k' : κ) (v : ν) (l : List (κ × ν)) :
    (insertEntry k v l).lookup k' = if k' = k then some v else l.lookup k' := by
  induction l with
  | nil => simp [insertEntry, lookup_cons_ite]
  | cons e l ih =>
    obtain ⟨a, w⟩ := e
    by_cases ha : a = k
    · by_cases h : k' = k <;> simp [insertEntry, lookup_cons_ite, ha, h]
    · by_cases h : k' = a
      · simp [insertEntry, ha, h]
      · simp [insertEntry, lookup_cons_ite, ha, h, ih]

@[simp]
theorem get?_insert (t : Table κ ν) (k k' : κ) (v : ν) :
    (t.insert k v).get? k' = if k' = k then some v else t.get? k' :=
  lookup_insertEntry k k' v t.entries

theorem lookup_mapEntries (f : κ → ν → μ) (k : κ) (l : List (κ × ν)) :
    (l.map fun e => (e.1, f e.1 e.2)).lookup k = (l.lookup k).map (f k) := by
  induction l with
  | nil => rfl
  | cons e l ih =>
    obtain ⟨a, w⟩ := e
    by_cases h : k = a
    · simp [h]
    · simp [lookup_cons_ite, h, ih]

@[simp]
theorem get?_mapWithKey (t : Table κ ν) (f : κ → ν → μ) (k : κ) :
    (t.mapWithKey f).get? k = (t.get? k).map (f k) :=
  lookup_mapEntries f k t.entries

theorem lookup_filter_ne (k k' : κ) (l : List (κ × ν)) :
    (l.filter fun e => e.1 != k).lookup k' = if k' = k then none else l.lookup k' := by
  induction l with
  | nil => simp
  | cons e l ih =>
    obtain ⟨a, w⟩ := e
    by_cases ha : a = k
    · by_cases h : k' = k
      · simpa [ha, h] using ih
      · simpa [lookup_cons_ite, ha, h] using ih
    · by_cases h : k' = a
      · simp [ha, h]
      · simp [lookup_cons_ite, ha, h, ih]

@[simp]
theorem get?_erase (t : Table κ ν) (k k' : κ) :
    (t.erase k).get? k' = if k' = k then none else t.get? k' :=
  lookup_filter_ne k k' t.entries

end Table

end SiteFusion
