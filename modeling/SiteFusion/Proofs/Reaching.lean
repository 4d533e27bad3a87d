import Mathlib.Logic.Relation
import SiteFusion.Analysis.Calls
import SiteFusion.Proofs.Tables

namespace SiteFusion

open List

section

variable {α : Type} [DecidableEq α] {next : α → List α}

theorem reach_induction {P : α → Prop} (hnext : ∀ a, P a → ∀ b ∈ next a, P b) (n : Nat)
    {stack seen : List α} (hstack : ∀ a ∈ stack, P a) (hseen : ∀ a ∈ seen, P a) :
    ∀ a ∈ reach next n stack seen, P a := by
  induction n generalizing stack seen with
  | zero => exact hseen
  | succ n ih =>
    cases stack with
    | nil => exact hseen
    | cons a stack =>
      have ha : P a := hstack a mem_cons_self
      have hrest : ∀ b ∈ stack, P b := fun b hb => hstack b (mem_cons_of_mem _ hb)
      rw [reach]
      split
      · exact ih hrest hseen
      · apply ih
        · intro b hb
          rcases mem_append.mp hb with hb | hb
          · exact hnext a ha b hb
          · exact hrest b hb
        · intro b hb
          rcases mem_append.mp hb with hb | hb
          · exact hseen b hb
          · rw [mem_singleton.mp hb]
            exact ha

/-- The number of edges from nodes that were not seen. -/
def unseenEdges (next : α → List α) (seen : List α) : List α → Nat
  | [] => 0
  | a :: l => (if a ∈ seen then 0 else (next a).length) + unseenEdges next seen l

theorem unseenEdges_le (next : α → List α) (seen : List α) (a : α) (l : List α) :
    unseenEdges next (seen ++ [a]) l ≤ unseenEdges next seen l := by
  induction l with
  | nil => exact Nat.le_refl _
  | cons b l ih =>
    simp only [unseenEdges, mem_append, mem_singleton]
    by_cases hb : b ∈ seen
    · simpa [hb] using ih
    · by_cases hba : b = a
      · simp only [hba, or_true, ↓reduceIte]
        omega
      · simp only [hb, hba, or_false, ↓reduceIte]
        omega

theorem unseenEdges_add_le (next : α → List α) {seen : List α} {a : α} {l : List α} (ha : a ∈ l)
    (hs : a ∉ seen) :
    unseenEdges next (seen ++ [a]) l + (next a).length ≤ unseenEdges next seen l := by
  induction l with
  | nil => cases ha
  | cons b l ih =>
    have hle := unseenEdges_le next seen a l
    simp only [unseenEdges, mem_append, mem_singleton]
    by_cases hba : b = a
    · subst hba
      simp only [hs, or_true, ↓reduceIte]
      omega
    · have ih := ih ((mem_cons.mp ha).resolve_left fun h => hba h.symm)
      by_cases hb : b ∈ seen
      · simp only [hb, true_or, ↓reduceIte]
        omega
      · simp only [hb, hba, or_false, ↓reduceIte]
        omega

theorem reach_closed {nodes : List α} (hnodes : ∀ a, a ∉ nodes → next a = []) (n : Nat)
    {stack seen : List α} (hn : stack.length + unseenEdges next seen nodes ≤ n)
    (hseen : ∀ a ∈ seen, ∀ b ∈ next a, b ∈ seen ∨ b ∈ stack) :
    (∀ a ∈ seen ++ stack, a ∈ reach next n stack seen) ∧
      ∀ a ∈ reach next n stack seen, ∀ b ∈ next a, b ∈ reach next n stack seen := by
  induction n generalizing stack seen with
  | zero =>
    have hstack : stack = [] := length_eq_zero_iff.mp (by omega)
    subst hstack
    simp only [reach, append_nil]
    exact ⟨fun a ha => ha, fun a ha b hb => (hseen a ha b hb).resolve_right (by simp)⟩
  | succ n ih =>
    cases stack with
    | nil =>
      simp only [reach, append_nil]
      exact ⟨fun a ha => ha, fun a ha b hb => (hseen a ha b hb).resolve_right (by simp)⟩
    | cons a stack =>
      rw [reach]
      rw [length_cons] at hn
      by_cases ha : a ∈ seen
      · rw [if_pos (contains_iff_mem.mpr ha)]
        have hseen' : ∀ b ∈ seen, ∀ c ∈ next b, c ∈ seen ∨ c ∈ stack := by
          intro b hb c hc
          rcases hseen b hb c hc with h | h
          · exact .inl h
          · rcases mem_cons.mp h with rfl | h
            · exact .inl ha
            · exact .inr h
        obtain ⟨hin, hclosed⟩ := ih (by omega) hseen'
        refine ⟨fun b hb => hin b ?_, hclosed⟩
        rcases mem_append.mp hb with hb | hb
        · exact mem_append_left _ hb
        · rcases mem_cons.mp hb with rfl | hb
          · exact mem_append_left _ ha
          · exact mem_append_right _ hb
      · rw [if_neg (by simpa using ha)]
        have hfuel : (next a ++ stack).length + unseenEdges next (seen ++ [a]) nodes ≤ n := by
          rw [length_append]
          by_cases hm : a ∈ nodes
          · have hle := unseenEdges_add_le next hm ha
            omega
          · have hle := unseenEdges_le next seen a nodes
            rw [hnodes a hm, length_nil]
            omega
        have hseen' : ∀ b ∈ seen ++ [a], ∀ c ∈ next b, c ∈ seen ++ [a] ∨ c ∈ next a ++ stack := by
          intro b hb c hc
          rcases mem_append.mp hb with hb | hb
          · rcases hseen b hb c hc with h | h
            · exact .inl (mem_append_left _ h)
            · rcases mem_cons.mp h with rfl | h
              · exact .inl (mem_append_right _ mem_cons_self)
              · exact .inr (mem_append_right _ h)
          · rw [mem_singleton.mp hb] at hc
            exact .inr (mem_append_left _ hc)
        obtain ⟨hin, hclosed⟩ := ih hfuel hseen'
        refine ⟨fun b hb => hin b ?_, hclosed⟩
        simp only [mem_append, mem_cons, not_mem_nil, or_false] at hb ⊢
        rcases hb with hb | hb | hb
        · exact .inl (.inl hb)
        · exact .inl (.inr hb)
        · exact .inr (.inr hb)

theorem mem_reach {ν : Type} {t : Table α ν} {c : α → ν → List α}
    (hnext : ∀ k, next k = ((t.get? k).map (c k)).getD []) {n : Nat} {stack : List α}
    (hn : stack.length + (t.entries.flatMap fun e => c e.1 e.2).length ≤ n) {a : α} :
    a ∈ reach next n stack [] ↔
      ∃ s ∈ stack, Relation.ReflTransGen (fun a b => ∃ v, t.get? a = some v ∧ b ∈ c a v) s a := by
  have hedge : ∀ {a b}, b ∈ next a ↔ ∃ v, t.get? a = some v ∧ b ∈ c a v := by
    intro a b
    rw [hnext]
    cases t.get? a <;> simp
  have hnodes : ∀ a, a ∉ t.keys → next a = [] := by
    intro a ha
    refine eq_nil_iff_forall_not_mem.mpr fun b hb => ?_
    obtain ⟨v, hv, -⟩ := hedge.mp hb
    exact ha (Table.mem_keys_iff.mpr ⟨v, hv⟩)
  have hsum : ∀ l : List (α × ν), (∀ e ∈ l, e ∈ t.entries) →
      unseenEdges next [] (l.map Prod.fst) = (l.flatMap fun e => c e.1 e.2).length := by
    intro l hl
    induction l with
    | nil => rfl
    | cons e l ih =>
      obtain ⟨he, hl⟩ := forall_mem_cons.mp hl
      rw [map_cons, flatMap_cons, length_append, unseenEdges,
        if_neg not_mem_nil, ih hl, hnext, Table.get?_eq_some_iff.mpr he]
      rfl
  obtain ⟨hin, hclosed⟩ := reach_closed hnodes n (hsum _ (fun _ he => he) ▸ hn) (by simp)
  constructor
  · refine reach_induction (P := fun a => ∃ s ∈ stack,
      Relation.ReflTransGen (fun a b => ∃ v, t.get? a = some v ∧ b ∈ c a v) s a) ?_ n ?_ (by simp) a
    · rintro a ⟨s, hs, h⟩ b hb
      exact ⟨s, hs, h.tail (hedge.mp hb)⟩
    · exact fun s hs => ⟨s, hs, .refl⟩
  · rintro ⟨s, hs, h⟩
    induction h with
    | refl => exact hin s hs
    | tail _ hb ih => exact hclosed _ ih _ (hedge.mpr hb)

section Search

variable {target : α} {nodes visited : List α} {s : α → List α → Bool × List α}

theorem searchEach_found {P : α → Prop} (hs : ∀ a visited, (s a visited).1 = true → P a)
    {l : List α} (h : (searchEach target s l visited).1 = true) : ∃ a ∈ l, a = target ∨ P a := by
  induction l generalizing visited with
  | nil => cases h
  | cons a l ih =>
    rw [searchEach] at h
    split at h
    · next ha => exact ⟨a, mem_cons_self, .inl ha⟩
    · dsimp only at h
      split at h
      · exact ⟨a, mem_cons_self, .inr (hs a visited h)⟩
      · obtain ⟨b, hb, h⟩ := ih h
        exact ⟨b, mem_cons_of_mem _ hb, h⟩

theorem search_found {n : Nat} {a : α} (h : (search next target n a visited).1 = true) :
    Relation.TransGen (fun a b => b ∈ next a) a target := by
  induction n generalizing a visited with
  | zero => cases h
  | succ n ih =>
    rw [search] at h
    split at h
    · cases h
    · obtain ⟨b, hb, hlast⟩ := searchEach_found
        (P := fun a => Relation.TransGen (fun a b => b ∈ next a) a target) (fun _ _ h => ih h) h
      rcases hlast with rfl | hway
      · exact .single hb
      · exact .head hb hway

/-- No edge leads from what was visited in between to the target or to what was not visited. -/
structure Exhausts (next : α → List α) (target : α) (before after : List α) : Prop where
  subset : before ⊆ after
  closed : ∀ a ∈ after, a ∉ before → ∀ b ∈ next a, b ≠ target ∧ b ∈ after

theorem Exhausts.trans {v₁ v₂ v₃ : List α} (h : Exhausts next target v₁ v₂)
    (h' : Exhausts next target v₂ v₃) : Exhausts next target v₁ v₃ := by
  refine ⟨List.Subset.trans h.subset h'.subset, fun a ha hnot b hb => ?_⟩
  by_cases ha₂ : a ∈ v₂
  · exact (h.closed a ha₂ hnot b hb).imp_right fun hb => h'.subset hb
  · exact h'.closed a ha ha₂ b hb

/-- The number of nodes that were not visited. -/
def unvisited (nodes visited : List α) : Nat := nodes.countP (· ∉ visited)

theorem unvisited_le {after : List α} (h : visited ⊆ after) :
    unvisited nodes after ≤ unvisited nodes visited :=
  countP_mono_left fun a _ ha => by
    simp only [decide_eq_true_eq] at ha ⊢
    exact fun hv => ha (h hv)

theorem unvisited_lt {a : α} (ha : a ∈ nodes) (hv : a ∉ visited) :
    unvisited nodes (a :: visited) < unvisited nodes visited := by
  obtain ⟨l, r, rfl⟩ := append_of_mem ha
  have hle : ∀ l, unvisited l (a :: visited) ≤ unvisited l visited := fun _ =>
    unvisited_le (subset_cons_self a visited)
  have hl := hle l
  have hr := hle r
  simp only [unvisited, countP_append, countP_cons, hv, mem_cons, true_or, not_true_eq_false,
    not_false_eq_true, decide_true, decide_false, if_true] at hl hr ⊢
  simp only [Bool.false_eq_true, if_false]
  omega

theorem searchEach_fails {n : Nat} (hs : ∀ a visited, unvisited nodes visited < n →
      (s a visited).1 = false → Exhausts next target visited (s a visited).2 ∧ a ∈ (s a visited).2)
    {l : List α} (hn : unvisited nodes visited < n)
    (h : (searchEach target s l visited).1 = false) :
    Exhausts next target visited (searchEach target s l visited).2 ∧
      ∀ a ∈ l, a ≠ target ∧ a ∈ (searchEach target s l visited).2 := by
  induction l generalizing visited with
  | nil => exact ⟨⟨Subset.refl _, fun a ha hnot => absurd ha hnot⟩, by simp⟩
  | cons a l ih =>
    rw [searchEach] at h ⊢
    split at h
    · cases h
    · next ha =>
      rw [if_neg ha]
      dsimp only at h ⊢
      split at h
      · next hfound => rw [h] at hfound; cases hfound
      · next hfound =>
        rw [if_neg hfound]
        obtain ⟨hfirst, hmem⟩ := hs a visited hn (Bool.eq_false_iff.mpr hfound)
        obtain ⟨hrest, hall⟩ := ih (Nat.lt_of_le_of_lt (unvisited_le hfirst.subset) hn) h
        exact ⟨hfirst.trans hrest, forall_mem_cons.mpr ⟨⟨ha, hrest.subset hmem⟩, hall⟩⟩

theorem search_fails (hnodes : ∀ a, a ∉ nodes → next a = []) {n : Nat} {a : α}
    (hn : unvisited nodes visited < n) (h : (search next target n a visited).1 = false) :
    Exhausts next target visited (search next target n a visited).2 ∧
      a ∈ (search next target n a visited).2 := by
  induction n generalizing a visited with
  | zero => omega
  | succ n ih =>
    rw [search] at h ⊢
    split at h
    · next ha =>
      rw [if_pos ha]
      exact ⟨⟨Subset.refl _, fun a ha hnot => absurd ha hnot⟩, contains_iff_mem.mp ha⟩
    · next ha =>
      rw [if_neg ha]
      have hnew : a ∉ visited := fun hmem => ha (contains_iff_mem.mpr hmem)
      have heach : Exhausts next target (a :: visited)
          (searchEach target (search next target n) (next a) (a :: visited)).2 ∧
          ∀ b ∈ next a, b ≠ target ∧
            b ∈ (searchEach target (search next target n) (next a) (a :: visited)).2 := by
        by_cases hmem : a ∈ nodes
        · have hlt := unvisited_lt hmem hnew
          exact searchEach_fails (fun a visited => ih) (by omega) h
        · rw [hnodes a hmem]
          exact ⟨⟨Subset.refl _, fun a ha hnot => absurd ha hnot⟩, by simp⟩
      obtain ⟨hex, hall⟩ := heach
      refine ⟨⟨List.Subset.trans (subset_cons_self a visited) hex.subset, fun b hb hnot => ?_⟩,
        hex.subset mem_cons_self⟩
      by_cases hba : b = a
      · exact hba ▸ hall
      · exact hex.closed b hb (not_mem_cons_of_ne_of_not_mem hba hnot)

/-- A search finds the target exactly if a way leads to it. -/
theorem search_iff (hnodes : ∀ a, a ∉ nodes → next a = []) {n : Nat} (hn : nodes.length < n)
    {a : α} : (search next target n a []).1 = true ↔
      Relation.TransGen (fun a b => b ∈ next a) a target := by
  refine ⟨search_found, fun hway => ?_⟩
  refine (Bool.eq_false_or_eq_true _).resolve_right fun hnot => ?_
  have hfuel : unvisited nodes [] < n := Nat.lt_of_le_of_lt countP_le_length hn
  obtain ⟨hex, hstart⟩ := search_fails hnodes hfuel hnot
  obtain ⟨b, hb, hlast⟩ := Relation.TransGen.tail'_iff.mp hway
  have hvisited : b ∈ (search next target n a []).2 := by
    clear hlast
    induction hb with
    | refl => exact hstart
    | tail _ hedge ih => exact (hex.closed _ ih not_mem_nil _ hedge).2
  exact (hex.closed b hvisited not_mem_nil target hlast).1 rfl

end Search

end

theorem Graph.reachable_closed (g : Graph) :
    g.entry ∈ g.reachable ∧ ∀ b ∈ g.reachable, ∀ s ∈ g.successorsOf b, s ∈ g.reachable := by
  have hnext : ∀ k, (g.successorsOf k).reverse =
      ((g.blocks.get? k).map fun b => b.successors.reverse).getD [] := by
    intro k
    rw [successorsOf, block?]
    cases g.blocks.get? k <;> rfl
  have hmem : ∀ {a}, a ∈ g.reachable ↔ ∃ s ∈ [g.entry], Relation.ReflTransGen
      (fun a b => ∃ v, g.blocks.get? a = some v ∧ b ∈ v.successors.reverse) s a := by
    refine mem_reach hnext ?_
    simp only [edgeCount, blockList, Table.values, flatMap_map, length_flatMap,
      length_reverse]
    exact Nat.le_of_eq (Nat.add_comm _ _)
  refine ⟨hmem.mpr ⟨_, mem_singleton_self _, .refl⟩, fun b hb s hs => ?_⟩
  obtain ⟨a, ha, h⟩ := hmem.mp hb
  cases hv : g.blocks.get? b with
  | none => rw [successorsOf, block?, hv] at hs; cases hs
  | some v =>
    rw [successorsOf, block?, hv] at hs
    exact hmem.mpr ⟨a, ha, h.tail ⟨v, hv, mem_reverse.mpr hs⟩⟩

end SiteFusion
