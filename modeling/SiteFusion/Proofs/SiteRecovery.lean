import SiteFusion.Proofs.SiteSteps

namespace SiteFusion

open List

variable {b : Block} {o : Operation Instruction}

theorem Block.mem_listed {l : Listed} (hl : l ∈ b.listed) :
    (∃ p ∈ b.phis, l.tags = p.tags) ∨
      (∃ i o, b.instructions[i]? = some o ∧ l = ⟨.inst i, o.id, o.tags⟩) ∨
      l = ⟨.terminator, b.terminator.id, b.terminator.tags⟩ := by
  rw [listed, mem_append, mem_append, mem_singleton] at hl
  rcases hl with (hl | hl) | rfl
  · obtain ⟨i, hi, rfl⟩ := mem_mapIdx.mp hl
    exact .inl ⟨b.phis[i], getElem_mem hi, rfl⟩
  · obtain ⟨i, hi, rfl⟩ := mem_mapIdx.mp hl
    exact .inr (.inl ⟨i, b.instructions[i], getElem?_eq_getElem hi, rfl⟩)
  · exact .inr (.inr rfl)

theorem Block.lt_of_mem_listed {l : Listed} {i : Nat} (hl : l ∈ b.listed)
    (hp : l.position = .inst i) : i < b.instructions.length := by
  rw [listed, mem_append, mem_append, mem_singleton] at hl
  rcases hl with (hl | hl) | rfl
  · obtain ⟨j, hj, rfl⟩ := mem_mapIdx.mp hl
    cases hp
  · obtain ⟨j, hj, rfl⟩ := mem_mapIdx.mp hl
    cases hp
    exact hj
  · cases hp

theorem Block.listed_instruction {i : Nat} (hi : b.instructions[i]? = some o) :
    ⟨.inst i, o.id, o.tags⟩ ∈ b.listed := by
  obtain ⟨hlt, rfl⟩ := List.getElem?_eq_some_iff.mp hi
  rw [listed, mem_append, mem_append]
  exact .inl (.inr (mem_mapIdx.mpr ⟨i, hlt, rfl⟩))

theorem Function.mem_findNoted {f : Function} {test : Tags → Bool} {x : Found} :
    x ∈ f.findNoted test ↔ ∃ k b, f.graph.block? k = some b ∧ ∃ l ∈ b.listed,
      l.tags.isEmpty = false ∧ test l.tags = true ∧ x = ⟨b.id, l.position, l.op⟩ := by
  simp only [findNoted, Block.findNoted, mem_flatMap, List.mem_map, mem_filter,
    Bool.and_eq_true, Bool.not_eq_true', Graph.blockList, Table.mem_values_iff, Graph.block?]
  constructor
  · rintro ⟨b, ⟨k, hb⟩, l, ⟨hl, he, ht⟩, rfl⟩
    exact ⟨k, b, hb, l, hl, he, ht, rfl⟩
  · rintro ⟨k, b, hb, l, hl, he, ht, rfl⟩
    exact ⟨b, ⟨k, hb⟩, l, ⟨hl, he, ht⟩, rfl⟩

namespace Site

variable {f : Function} {c : String} {n : UInt64} {b : Block} {k : BlockId}
  {s : Site} {test : Tags → Bool} {x : Found}

/-- No marker is stray if the blocks of a function have their keys for numbers. -/
theorem all_eq (hk : ∀ k b, f.graph.block? k = some b → b.id = k) :
    all f = .ok (findAll f) := by
  have hplain : ∀ test, ((f.findNoted test).head?.any fun x => isStray f x) = false := by
    intro test
    rw [Bool.eq_false_iff, ne_eq, Option.any_eq_true]
    rintro ⟨x, hx, hs⟩
    obtain ⟨b, hb, hx⟩ := List.mem_flatMap.mp (List.mem_of_mem_head? hx)
    obtain ⟨l, hl, rfl⟩ := List.mem_map.mp hx
    obtain ⟨k, hk'⟩ := Table.mem_values_iff.mp hb
    have hblock : f.graph.block? b.id = some b := hk k b hk' ▸ hk'
    rw [isStray, hblock] at hs
    have hmem := (List.mem_filter.mp hl).1
    split at hs
    · next i b' hp hb' =>
      cases hb'
      have hlt := Block.lt_of_mem_listed hmem hp
      simp only [decide_eq_true_eq] at hs
      omega
    · cases hs
  have hno : ∀ c n, hasStray f c n = false := by
    intro c n
    rw [hasStray, startMarker?, finishMarker?, hplain, hplain, Bool.and_false, Bool.or_false]
  unfold all
  rw [if_neg]
  rw [Bool.not_eq_true, List.any_eq_false]
  intro b _
  cases dispatch? b with
  | none => simp
  | some x => simp [hno]

theorem foldl_lower_mem (l : List Site) (a : Site) :
    l.foldl lower a = a ∨ l.foldl lower a ∈ l := by
  induction l generalizing a with
  | nil => exact .inl rfl
  | cons b l ih =>
    rw [foldl_cons]
    have hlower : lower a b = a ∨ lower a b = b := by
      unfold lower
      split
      · exact .inr rfl
      · exact .inl rfl
    rcases ih (lower a b) with h | h
    · rw [h]
      rcases hlower with h | h
      · exact .inl h
      · rw [h]
        exact .inr mem_cons_self
    · exact .inr (mem_cons_of_mem _ h)

theorem mem_of_lowest? {l : List Site} {y : Site} (h : lowest? l c = some y) : y ∈ l := by
  unfold lowest? at h
  split at h
  · cases h
  · next a rest hl =>
    cases h
    have hsub : ∀ b ∈ a :: rest, b ∈ l := fun b hb => mem_of_mem_filter (hl ▸ hb)
    rcases foldl_lower_mem rest a with h | h
    · rw [h]
      exact hsub a mem_cons_self
    · exact hsub _ (mem_cons_of_mem _ h)

theorem eq_findAll_of_all {sites : List Site} (h : all f = .ok sites) : sites = findAll f := by
  unfold all at h
  split at h
  · cases h
  · cases h
    rfl

theorem exists_of_mem_findAll (hs : s ∈ findAll f) : s.caller = f.id ∧
    ∃ b ∈ f.graph.blockList, b.id = s.dispatch ∧ dispatch? b = some (s.callee, s.ordinal) := by
  obtain ⟨b, hb, hs⟩ := mem_filterMap.mp hs
  obtain ⟨x, hx, hs⟩ := Option.bind_eq_some_iff.mp hs
  obtain ⟨start, -, hs⟩ := Option.bind_eq_some_iff.mp hs
  obtain ⟨loads, -, hs⟩ := Option.bind_eq_some_iff.mp hs
  obtain ⟨args, -, hs⟩ := Option.bind_eq_some_iff.mp hs
  obtain ⟨head, -, hs⟩ := Option.bind_eq_some_iff.mp hs
  cases hs
  exact ⟨rfl, b, hb, rfl, hx⟩

theorem mem_findAll_of_find (h : find f c = .ok (some s)) : s ∈ findAll f := by
  obtain ⟨sites, hall, h⟩ := bind_eq_ok.mp h
  rw [eq_findAll_of_all hall] at h
  exact mem_of_lowest? (Except.ok.inj h)

end Site

end SiteFusion
