import SiteFusion.Table

namespace SiteFusion.Table

open Option

variable {κ ν μ α : Type} [DecidableEq κ] [DecidableEq α]

theorem lookup_eq_some_iff {l : List (κ × ν)} (h : (l.map Prod.fst).Nodup) {k : κ} {v : ν} :
    l.lookup k = some v ↔ (k, v) ∈ l := by
  induction l with
  | nil => simp
  | cons e l ih =>
    obtain ⟨a, w⟩ := e
    rw [List.map_cons, List.nodup_cons] at h
    rw [lookup_cons_ite]
    by_cases hk : k = a
    · subst hk
      have hn : (k, v) ∉ l := fun hm => h.1 (List.mem_map.mpr ⟨_, hm, rfl⟩)
      simp [hn, eq_comm]
    · simp [hk, ih h.2]

theorem get?_eq_some_iff {t : Table κ ν} {k : κ} {v : ν} :
    t.get? k = some v ↔ (k, v) ∈ t.entries :=
  lookup_eq_some_iff t.nodup

instance decidableForall (t : Table κ ν) (p : κ → ν → Prop) [∀ k v, Decidable (p k v)] :
    Decidable (∀ k v, t.get? k = some v → p k v) :=
  decidable_of_iff (∀ e ∈ t.entries, p e.1 e.2)
    ⟨fun h _ _ hv => h _ (get?_eq_some_iff.mp hv), fun h _ he => h _ _ (get?_eq_some_iff.mpr he)⟩

theorem mem_keys_iff {t : Table κ ν} {k : κ} : k ∈ t.keys ↔ ∃ v, t.get? k = some v := by
  constructor
  · intro h
    obtain ⟨⟨a, v⟩, hm, rfl⟩ := List.mem_map.mp h
    exact ⟨v, get?_eq_some_iff.mpr hm⟩
  · rintro ⟨v, hv⟩
    exact List.mem_map.mpr ⟨_, get?_eq_some_iff.mp hv, rfl⟩

theorem mem_values_iff {t : Table κ ν} {v : ν} : v ∈ t.values ↔ ∃ k, t.get? k = some v := by
  constructor
  · intro h
    obtain ⟨⟨k, w⟩, hm, rfl⟩ := List.mem_map.mp h
    exact ⟨k, get?_eq_some_iff.mpr hm⟩
  · rintro ⟨k, hk⟩
    exact List.mem_map.mpr ⟨_, get?_eq_some_iff.mp hk, rfl⟩

theorem mem_flatMap_values {α : Type} {t : Table κ ν} {h : ν → List α} {x : α} :
    x ∈ t.values.flatMap h ↔ ∃ k v, t.get? k = some v ∧ x ∈ h v := by
  simp only [List.mem_flatMap, mem_values_iff]
  constructor
  · rintro ⟨v, ⟨k, hk⟩, hx⟩
    exact ⟨k, v, hk, hx⟩
  · rintro ⟨k, v, hk, hx⟩
    exact ⟨v, ⟨k, hk⟩, hx⟩

theorem contains_iff {t : Table κ ν} {k : κ} : t.contains k = true ↔ ∃ v, t.get? k = some v := by
  rw [contains, isSome_iff_exists]

theorem contains_insert {t : Table κ ν} {k k' : κ} {v : ν} :
    (t.insert k v).contains k' = true ↔ k' = k ∨ t.contains k' = true := by
  rw [contains, get?_insert]
  by_cases h : k' = k
  · simp [h]
  · simp [h, contains]

@[simp]
theorem get?_empty (k : κ) : (empty : Table κ ν).get? k = none := rfl

@[simp]
theorem get?_map (t : Table κ ν) (f : ν → μ) (k : κ) : (t.map f).get? k = (t.get? k).map f :=
  get?_mapWithKey t (fun _ v => f v) k

theorem contains_map (t : Table κ ν) (f : ν → μ) (k : κ) :
    (t.map f).contains k = t.contains k := by
  rw [contains, contains, get?_map, isSome_map]

theorem get?_modify (t : Table κ ν) (k k' : κ) (f : ν → ν) :
    (t.modify k f).get? k' = if k' = k then (t.get? k').map f else t.get? k' := by
  rw [modify, get?_mapWithKey]
  by_cases h : k' = k <;> simp [h]

theorem lookup_filter {l : List (κ × ν)} (h : (l.map Prod.fst).Nodup) (p : κ → ν → Bool) (k : κ) :
    (l.filter fun e => p e.1 e.2).lookup k = (l.lookup k).filter (p k) := by
  induction l with
  | nil => rfl
  | cons e l ih =>
    obtain ⟨a, w⟩ := e
    rw [List.map_cons, List.nodup_cons] at h
    by_cases hk : k = a
    · subst hk
      cases hp : p k w with
      | true => simp [hp, filter_some]
      | false =>
        have hn : l.lookup k = none := by
          refine eq_none_iff_forall_ne_some.mpr fun v hv => ?_
          exact h.1 (List.mem_map.mpr ⟨_, (lookup_eq_some_iff h.2).mp hv, rfl⟩)
        simp [hp, ih h.2, hn, filter_some]
    · cases hp : p a w <;> simp [hp, lookup_cons_ite, hk, ih h.2]

@[simp]
theorem get?_filter (t : Table κ ν) (p : κ → ν → Bool) (k : κ) :
    (t.filter p).get? k = (t.get? k).filter (p k) :=
  lookup_filter t.nodup p k

theorem insertEntry_of_not_mem {k : κ} {v : ν} {l : List (κ × ν)} (h : k ∉ l.map Prod.fst) :
    insertEntry k v l = l ++ [(k, v)] := by
  induction l with
  | nil => rfl
  | cons e l ih =>
    rw [List.map_cons, List.mem_cons, not_or] at h
    simp [insertEntry, Ne.symm h.1, ih h.2]

theorem entries_insert_of_none {t : Table κ ν} {k : κ} (h : t.get? k = none) (v : ν) :
    (t.insert k v).entries = t.entries ++ [(k, v)] := by
  refine insertEntry_of_not_mem fun hm => ?_
  obtain ⟨w, hw⟩ := mem_keys_iff.mp hm
  rw [h] at hw
  cases hw

theorem entries_ofList {l : List (κ × ν)} (h : (l.map Prod.fst).Nodup) :
    (ofList l).entries = l := by
  have hfold : ∀ t : Table κ ν, ((t.entries ++ l).map Prod.fst).Nodup →
      (l.foldl (fun t e => t.insert e.1 e.2) t).entries = t.entries ++ l := by
    induction l with
    | nil => exact fun t _ => (List.append_nil _).symm
    | cons e l ih =>
      intro t ht
      have hnone : t.get? e.1 = none := by
        refine eq_none_iff_forall_ne_some.mpr fun v hv => ?_
        rw [List.map_append, List.map_cons] at ht
        exact (List.nodup_append.mp ht).2.2 _ (List.mem_map_of_mem (get?_eq_some_iff.mp hv)) _
          List.mem_cons_self rfl
      have hins := entries_insert_of_none hnone e.2
      have ih := ih (List.nodup_cons.mp h).2 (t.insert e.1 e.2) (by simpa [hins] using ht)
      rw [List.foldl_cons, ih, hins, List.append_assoc]
      rfl
  exact hfold empty h

theorem keys_insertEntry_of_mem {k : κ} (v : ν) {l : List (κ × ν)} (h : k ∈ l.map Prod.fst) :
    (insertEntry k v l).map Prod.fst = l.map Prod.fst := by
  induction l with
  | nil => cases h
  | cons e l ih =>
    by_cases he : e.1 = k
    · simp [insertEntry, he]
    · have hl : k ∈ l.map Prod.fst := by simpa [Ne.symm he] using h
      simp [insertEntry, he, ih hl]

theorem keys_insert_of_contains {t : Table κ ν} {k : κ} (h : t.contains k) (v : ν) :
    (t.insert k v).keys = t.keys :=
  keys_insertEntry_of_mem v (mem_keys_iff.mpr (contains_iff.mp h))

theorem entries_map_eq (t : Table κ ν) :
    (t.entries.map fun e => (e.1, some e.2)) = t.keys.map fun k => (k, t.get? k) := by
  rw [keys, List.map_map]
  refine List.map_congr_left fun e he => ?_
  have h : t.get? e.1 = some e.2 := get?_eq_some_iff.mpr he
  simp [h]

/-- A table is told by its keys in their order and by what is under them. -/
theorem ext_of_keys {t t' : Table κ ν} (hk : t.keys = t'.keys) (hg : ∀ k, t.get? k = t'.get? k) :
    t = t' := by
  have h : (t.entries.map fun e => (e.1, some e.2)) = t'.entries.map fun e => (e.1, some e.2) := by
    rw [entries_map_eq, entries_map_eq, hk]
    simp [hg]
  have hinj : Function.Injective fun e : κ × ν => (e.1, some e.2) := by
    rintro ⟨a, v⟩ ⟨b, w⟩ hab
    simpa using hab
  obtain ⟨l, hl⟩ := t
  obtain ⟨l', hl'⟩ := t'
  simp only [mk.injEq]
  exact List.map_inj_right (fun x y hxy => hinj hxy) |>.mp h

theorem mapWithKey_eq_self {t : Table κ ν} {f : κ → ν → ν}
    (h : ∀ k v, t.get? k = some v → f k v = v) : t.mapWithKey f = t := by
  refine ext_of_keys (keys_mapEntries f t.entries) fun k => ?_
  rw [get?_mapWithKey]
  cases hv : t.get? k with
  | none => rfl
  | some v => exact congrArg some (h k v hv)

theorem map_eq_self {t : Table κ ν} {f : ν → ν} (h : ∀ k v, t.get? k = some v → f v = v) :
    t.map f = t :=
  mapWithKey_eq_self h

theorem count_flatMap_le {l : List ν} {c d : ν → List α} {a : α}
    (h : ∀ v ∈ l, (d v).count a ≤ (c v).count a) :
    (l.flatMap d).count a ≤ (l.flatMap c).count a := by
  induction l with
  | nil => simp
  | cons v l ih =>
    simp only [List.flatMap_cons, List.count_append]
    have hv := h v (by simp)
    have hl := ih fun w hw => h w (by simp [hw])
    omega

omit [DecidableEq κ] in
theorem values_map (t : Table κ ν) (f : ν → μ) : (t.map f).values = t.values.map f := by
  simp [values, map, mapWithKey]

theorem count_mapWithKey_le {t : Table κ ν} {f : κ → ν → ν} {c : ν → List α} {a : α}
    (h : ∀ k v, t.get? k = some v → (c (f k v)).count a ≤ (c v).count a) :
    ((t.mapWithKey f).values.flatMap c).count a ≤ (t.values.flatMap c).count a := by
  simp only [values, mapWithKey, List.map_map, List.flatMap_map]
  refine count_flatMap_le fun e he => ?_
  exact h e.1 e.2 (get?_eq_some_iff.mpr he)

theorem count_modify {t : Table κ ν} {k : κ} {v : ν} (h : t.get? k = some v) (f : ν → ν)
    (c : ν → List α) (a : α) :
    ((t.modify k f).values.flatMap c).count a + (c v).count a =
      (t.values.flatMap c).count a + (c (f v)).count a := by
  obtain ⟨l, hl⟩ := t
  simp only [get?] at h
  simp only [values, modify, mapWithKey, List.map_map, List.flatMap_map]
  induction l with
  | nil => simp at h
  | cons e l ih =>
    obtain ⟨b, w⟩ := e
    rw [List.map_cons, List.nodup_cons] at hl
    rw [lookup_cons_ite] at h
    simp only [List.flatMap_cons, List.count_append, Function.comp_apply]
    by_cases hk : k = b
    · subst hk
      have hw : w = v := by simpa using h
      subst hw
      have hrest : (l.flatMap fun e => c (if e.1 = k then f e.2 else e.2)) =
          l.flatMap fun e => c e.2 := by
        rw [List.flatMap_def, List.flatMap_def]
        refine congrArg List.flatten (List.map_congr_left fun e he => ?_)
        have hne : e.1 ≠ k := fun hek => hl.1 (List.mem_map.mpr ⟨e, he, hek⟩)
        simp [hne]
      simp only [↓reduceIte, hrest]
      omega
    · have hb : ¬ b = k := fun hbk => hk hbk.symm
      simp only [hk, ↓reduceIte] at h
      have hi := ih hl.2 h
      simp only [hb, ↓reduceIte]
      simp only [Function.comp_apply] at hi
      omega

theorem modify_of_none {t : Table κ ν} {k : κ} (h : t.get? k = none) (f : ν → ν) :
    t.modify k f = t := by
  have he : (t.entries.map fun e => (e.1, if e.1 = k then f e.2 else e.2)) = t.entries := by
    conv => rhs; rw [← List.map_id t.entries]
    refine List.map_congr_left fun e he => ?_
    have hne : e.1 ≠ k := by
      intro hek
      have hs : t.get? e.1 = some e.2 := get?_eq_some_iff.mpr he
      rw [hek, h] at hs
      cases hs
    simp [hne]
  obtain ⟨l, hl⟩ := t
  simp only [modify, mapWithKey, mk.injEq]
  exact he

theorem count_insert_le (t : Table κ ν) (k : κ) (v : ν) (c : ν → List α) (a : α) :
    ((t.insert k v).values.flatMap c).count a ≤
      (t.values.flatMap c).count a + (c v).count a := by
  simp only [values, insert, List.flatMap_map]
  induction t.entries with
  | nil => simp [insertEntry]
  | cons e l ih =>
    rw [insertEntry]
    split
    · simp only [List.flatMap_cons, List.count_append]
      omega
    · simp only [List.flatMap_cons, List.count_append]
      omega

omit [DecidableEq κ] in
theorem count_filter_le (t : Table κ ν) (p : κ → ν → Bool) (c : ν → List α) (a : α) :
    ((t.filter p).values.flatMap c).count a ≤ (t.values.flatMap c).count a := by
  simp only [values, filter, List.flatMap_map]
  induction t.entries with
  | nil => simp
  | cons e l ih =>
    simp only [List.filter_cons, List.flatMap_cons, List.count_append]
    split
    · simp only [List.flatMap_cons, List.count_append]
      omega
    · omega

end SiteFusion.Table
