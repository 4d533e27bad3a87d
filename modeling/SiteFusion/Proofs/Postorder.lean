import Mathlib
import SiteFusion.Analysis.Dominance
import SiteFusion.Proofs.Tables

namespace SiteFusion

open List

namespace Graph

/-- A way from the entry to a block, with the blocks on it, the last one first. -/
inductive Walk (g : Graph) : BlockId → List BlockId → Prop
  | start (h : g.blocks.contains g.entry) : Walk g g.entry [g.entry]
  | step {a b : BlockId} {l : List BlockId} (w : Walk g a l) (h : b ∈ g.successorsOf a)
      (hb : g.blocks.contains b) : Walk g b (b :: l)

/-- Every block is the entry or has an edge from an earlier one, where `before` came first. -/
def Rooted (g : Graph) : List BlockId → List BlockId → Prop
  | _, [] => True
  | before, b :: rest =>
    (b = g.entry ∨ ∃ p ∈ before, b ∈ g.successorsOf p) ∧ Rooted g (b :: before) rest

variable {g : Graph} {b s : BlockId} {before l seen : List BlockId}

theorem Walk.mem (w : g.Walk b l) : b ∈ l := by
  cases w <;> simp

theorem Walk.contains (w : g.Walk b l) : g.blocks.contains b := by
  cases w with
  | start h => exact h
  | step _ _ hb => exact hb

theorem Walk.contains_entry (w : g.Walk b l) : g.blocks.contains g.entry := by
  induction w with
  | start h => exact h
  | step _ _ _ ih => exact ih

theorem Rooted.mono {before' : List BlockId} (h : g.Rooted before l) (hs : before ⊆ before') :
    g.Rooted before' l := by
  induction l generalizing before before' with
  | nil => trivial
  | cons b l ih =>
    refine ⟨?_, ih h.2 (cons_subset_cons b hs)⟩
    rcases h.1 with he | ⟨p, hp, hb⟩
    · exact .inl he
    · exact .inr ⟨p, hs hp, hb⟩

theorem rooted_append {r : List BlockId} :
    g.Rooted before (l ++ r) ↔ g.Rooted before l ∧ g.Rooted (l.reverse ++ before) r := by
  induction l generalizing before with
  | nil => simp [Rooted]
  | cons b l ih =>
    simp only [cons_append, Rooted, ih, reverse_cons, append_assoc,
      nil_append, and_assoc]

theorem Rooted.exists_idxOf_lt (h : g.Rooted [] l) (hn : l.Nodup) (hb : b ∈ l) (he : b ≠ g.entry) :
    ∃ p ∈ l, b ∈ g.successorsOf p ∧ l.idxOf p < l.idxOf b := by
  obtain ⟨l₁, l₂, rfl⟩ := append_of_mem hb
  have hr := (rooted_append.mp h).2.1
  rcases hr with hr | ⟨p, hp, hs⟩
  · exact absurd hr he
  · have hp₁ : p ∈ l₁ := by simpa using hp
    have hb₁ : b ∉ l₁ := fun hm => (nodup_append.mp hn).2.2 b hm b (by simp) rfl
    refine ⟨p, by simp [hp₁], hs, ?_⟩
    rw [idxOf_append_of_mem hp₁, idxOf_append_of_notMem hb₁]
    have := idxOf_lt_length_of_mem hp₁
    omega

theorem Rooted.head?_eq (h : g.Rooted [] l) (hb : l.head? = some b) : b = g.entry := by
  cases l with
  | nil => cases hb
  | cons c l =>
    obtain rfl : c = b := by simpa using hb
    rcases h.1 with he | ⟨p, hp, -⟩
    · exact he
    · cases hp

theorem mem_successorsOf {a : BlockId} :
    b ∈ g.successorsOf a ↔ ∃ block, g.block? a = some block ∧ b ∈ block.successors := by
  unfold successorsOf
  cases h : g.block? a with
  | none => simp
  | some block => simp

/-- The edges and blocks that are still ahead of a search. -/
def unseenWeight (seen : List BlockId) : List (BlockId × Block) → Nat
  | [] => 0
  | e :: l => (if e.1 ∈ seen then 0 else e.2.successors.length + 1) + unseenWeight seen l

theorem unseenWeight_cons_of_not_mem {l : List (BlockId × Block)} (h : s ∉ l.map Prod.fst) :
    unseenWeight (s :: seen) l = unseenWeight seen l := by
  induction l with
  | nil => rfl
  | cons e l ih =>
    rw [map_cons, mem_cons, not_or] at h
    simp [unseenWeight, ih h.2, Ne.symm h.1]

theorem unseenWeight_eq {l : List (BlockId × Block)} {block : Block} (hn : (l.map Prod.fst).Nodup)
    (hm : (s, block) ∈ l) (hs : s ∉ seen) :
    unseenWeight seen l = unseenWeight (s :: seen) l + (block.successors.length + 1) := by
  induction l with
  | nil => cases hm
  | cons e l ih =>
    rw [map_cons, nodup_cons] at hn
    rcases mem_cons.mp hm with rfl | hm
    · simp [unseenWeight, hs, unseenWeight_cons_of_not_mem hn.1]
      omega
    · have hne : e.1 ≠ s := fun hes => hn.1 (List.mem_map.mpr ⟨_, hm, hes.symm⟩)
      simp only [unseenWeight, ih hn.2 hm, mem_cons, hne, false_or]
      omega

theorem unseenWeight_nil (g : Graph) :
    unseenWeight [] g.blocks.entries = g.edgeCount + g.blocks.size := by
  unfold edgeCount blockList Table.values Table.size
  induction g.blocks.entries with
  | nil => rfl
  | cons e l ih =>
    simp only [unseenWeight, not_mem_nil, ↓reduceIte, ih, map_cons, flatMap_cons,
      length_append, length_cons]
    omega

def pending (g : Graph) (stack : List (BlockId × List BlockId)) (seen : List BlockId) : Nat :=
  (stack.map fun e => e.2.length + 1).sum + unseenWeight seen g.blocks.entries

/-- The state of a search in depth. The blocks on the stack, the deepest last, and then those that
are done with are in an order that is kept. -/
structure Exploring (g : Graph) (stack : List (BlockId × List BlockId))
    (seen done : List BlockId) : Prop where
  nodup : ((stack.map Prod.fst).reverse ++ done).Nodup
  rooted : g.Rooted [] ((stack.map Prod.fst).reverse ++ done)
  mem_seen : ∀ b, b ∈ seen ↔ b ∈ stack.map Prod.fst ∨ b ∈ done
  walk : ∀ b ∈ seen, ∃ l, g.Walk b l
  ahead : ∀ e ∈ stack, e.2 ⊆ g.successorsOf e.1
  tried : ∀ e ∈ stack, ∀ s ∈ g.successorsOf e.1, g.blocks.contains s → s ∈ seen ∨ s ∈ e.2
  closed : ∀ b ∈ done, ∀ s ∈ g.successorsOf b, g.blocks.contains s → s ∈ seen

namespace Exploring

variable {stack : List (BlockId × List BlockId)} {seen done rest : List BlockId} {b s : BlockId}

theorem start (h : g.blocks.contains g.entry) :
    g.Exploring [(g.entry, g.successorsOf g.entry)] [g.entry] [] where
  nodup := by simp
  rooted := ⟨.inl rfl, trivial⟩
  mem_seen := by simp
  walk b hb := by
    obtain rfl : b = g.entry := by simpa using hb
    exact ⟨_, .start h⟩
  ahead := by simp
  tried e he s hs _ := by
    obtain rfl : e = (g.entry, g.successorsOf g.entry) := by simpa using he
    exact .inr hs
  closed := by simp

theorem pop (h : g.Exploring ((b, []) :: stack) seen done) :
    g.Exploring stack seen (b :: done) where
  nodup := by simpa using h.nodup
  rooted := by simpa using h.rooted
  mem_seen c := by
    rw [h.mem_seen]
    simp only [map_cons, mem_cons]
    tauto
  walk := h.walk
  ahead e he := h.ahead e (mem_cons_of_mem _ he)
  tried e he := h.tried e (mem_cons_of_mem _ he)
  closed c hc t ht hb := by
    rcases mem_cons.mp hc with rfl | hc
    · simpa using h.tried (c, []) (by simp) t ht hb
    · exact h.closed c hc t ht hb

theorem skip (h : g.Exploring ((b, s :: rest) :: stack) seen done)
    (hs : g.blocks.contains s → s ∈ seen) : g.Exploring ((b, rest) :: stack) seen done where
  nodup := h.nodup
  rooted := h.rooted
  mem_seen := h.mem_seen
  walk := h.walk
  ahead e he := by
    rcases mem_cons.mp he with rfl | he
    · exact fun t ht => h.ahead _ (mem_cons_self ..) (mem_cons_of_mem _ ht)
    · exact h.ahead e (mem_cons_of_mem _ he)
  tried e he t ht hb := by
    rcases mem_cons.mp he with rfl | he
    · rcases h.tried _ (mem_cons_self ..) t ht hb with hm | hm
      · exact .inl hm
      · rcases mem_cons.mp hm with rfl | hm
        · exact .inl (hs hb)
        · exact .inr hm
    · exact h.tried e (mem_cons_of_mem _ he) t ht hb
  closed := h.closed

theorem edge (h : g.Exploring ((b, s :: rest) :: stack) seen done) : s ∈ g.successorsOf b :=
  h.ahead _ (mem_cons_self ..) (mem_cons_self ..)

theorem push (h : g.Exploring ((b, s :: rest) :: stack) seen done)
    (hc : g.blocks.contains s) (hs : s ∉ seen) :
    g.Exploring ((s, g.successorsOf s) :: (b, rest) :: stack) (s :: seen) done where
  nodup := by
    have hns : s ∉ (((b, s :: rest) :: stack).map Prod.fst).reverse ++ done := by
      intro hm
      rw [mem_append, mem_reverse] at hm
      exact hs ((h.mem_seen s).mpr hm)
    have hperm : List.Perm
        ((((s, g.successorsOf s) :: (b, rest) :: stack).map Prod.fst).reverse ++ done)
        (s :: ((((b, s :: rest) :: stack).map Prod.fst).reverse ++ done)) := by
      rw [map_cons, reverse_cons, append_assoc]
      exact perm_middle
    exact hperm.nodup_iff.mpr (nodup_cons.mpr ⟨hns, h.nodup⟩)
  rooted := by
    obtain ⟨hl, hr⟩ := rooted_append.mp h.rooted
    rw [map_cons, reverse_cons, append_assoc]
    refine rooted_append.mpr ⟨hl, .inr ⟨b, by simp, h.edge⟩, hr.mono ?_⟩
    simp
  mem_seen c := by
    rw [mem_cons, h.mem_seen]
    simp only [map_cons, mem_cons]
    tauto
  walk c hcs := by
    rcases mem_cons.mp hcs with rfl | hcs
    · obtain ⟨l, w⟩ := h.walk b ((h.mem_seen b).mpr (by simp))
      exact ⟨_, w.step (h.edge) hc⟩
    · exact h.walk c hcs
  ahead e he := by
    rcases mem_cons.mp he with rfl | he
    · exact fun t ht => ht
    · rcases mem_cons.mp he with rfl | he
      · exact fun t ht => h.ahead _ (mem_cons_self ..) (mem_cons_of_mem _ ht)
      · exact h.ahead e (mem_cons_of_mem _ he)
  tried e he t ht hb := by
    rcases mem_cons.mp he with rfl | he
    · exact .inr ht
    · rcases mem_cons.mp he with rfl | he
      · rcases h.tried _ (mem_cons_self ..) t ht hb with hm | hm
        · exact .inl (mem_cons_of_mem _ hm)
        · rcases mem_cons.mp hm with rfl | hm
          · exact .inl (by simp)
          · exact .inr hm
      · rcases h.tried e (mem_cons_of_mem _ he) t ht hb with hm | hm
        · exact .inl (mem_cons_of_mem _ hm)
        · exact .inr hm
  closed c hcd t ht hb := mem_cons_of_mem _ (h.closed c hcd t ht hb)

theorem postorder (n : Nat) (h : g.Exploring stack seen done) (hn : g.pending stack seen < n) :
    ∃ seen', g.Exploring [] seen' (g.postorder n stack seen done) ∧ seen ⊆ seen' := by
  fun_induction Graph.postorder g n stack seen done with
  | case1 => omega
  | case2 n seen done => exact ⟨seen, h, fun _ hb => hb⟩
  | case3 n b stack seen done ih =>
    refine ih h.pop ?_
    simp only [pending, map_cons, sum_cons] at hn ⊢
    omega
  | case4 n b s rest stack seen done hcond ih =>
    obtain ⟨hc, hs⟩ : g.blocks.contains s = true ∧ s ∉ seen := by simpa using hcond
    obtain ⟨block, hb⟩ := Table.contains_iff.mp hc
    obtain ⟨seen', hex, hsub⟩ := ih (h.push hc hs) (by
      have hw := unseenWeight_eq g.blocks.nodup (Table.get?_eq_some_iff.mp hb) hs
      have hl : g.successorsOf s = block.successors := by simp [successorsOf, block?, hb]
      simp only [pending, map_cons, sum_cons, length_cons, hw, hl] at hn ⊢
      omega)
    exact ⟨seen', hex, fun c hcs => hsub (mem_cons_of_mem _ hcs)⟩
  | case5 n b s rest stack seen done hcond ih =>
    refine ih (h.skip fun hc => by simpa [hc] using hcond) ?_
    simp only [pending, map_cons, sum_cons, length_cons] at hn ⊢
    omega

end Exploring

theorem exists_exploring_reversePostorder (h : g.blocks.contains g.entry) :
    ∃ seen, g.Exploring [] seen g.reversePostorder ∧ g.entry ∈ seen := by
  obtain ⟨block, hb⟩ := Table.contains_iff.mp h
  have hw := unseenWeight_eq g.blocks.nodup (Table.get?_eq_some_iff.mp hb)
    (not_mem_nil (a := g.entry))
  obtain ⟨seen, hex, hsub⟩ := (Exploring.start h).postorder
    (g.edgeCount + g.blocks.size + 1) (by
      have hl : g.successorsOf g.entry = block.successors := by simp [successorsOf, block?, hb]
      rw [unseenWeight_nil] at hw
      simp only [pending, map_cons, map_nil, sum_cons, sum_nil, hl]
      omega)
  rw [reversePostorder, if_pos h]
  exact ⟨seen, hex, hsub (by simp)⟩

theorem nodup_reversePostorder (g : Graph) : g.reversePostorder.Nodup := by
  by_cases h : g.blocks.contains g.entry
  · obtain ⟨seen, hex, -⟩ := exists_exploring_reversePostorder h
    simpa using hex.nodup
  · simp [reversePostorder, h]

theorem mem_reversePostorder_iff : b ∈ g.reversePostorder ↔ ∃ l, g.Walk b l := by
  constructor
  · intro hb
    by_cases h : g.blocks.contains g.entry
    · obtain ⟨seen, hex, -⟩ := exists_exploring_reversePostorder h
      exact hex.walk b ((hex.mem_seen b).mpr (.inr hb))
    · simp [reversePostorder, h] at hb
  · rintro ⟨l, w⟩
    obtain ⟨seen, hex, he⟩ := exists_exploring_reversePostorder w.contains_entry
    induction w with
    | start _ => simpa using (hex.mem_seen g.entry).mp he
    | @step a b l w hs hb ih => simpa using (hex.mem_seen b).mp (hex.closed a ih b hs hb)

theorem reversePostorder_eq_cons (h : g.blocks.contains g.entry) :
    ∃ rest, g.reversePostorder = g.entry :: rest := by
  obtain ⟨seen, hex, -⟩ := exists_exploring_reversePostorder h
  have hr : g.Rooted [] g.reversePostorder := by simpa using hex.rooted
  have hm : g.entry ∈ g.reversePostorder := mem_reversePostorder_iff.mpr ⟨_, .start h⟩
  cases ho : g.reversePostorder with
  | nil => simp [ho] at hm
  | cons b rest =>
    rw [ho] at hr
    exact ⟨rest, by rw [hr.head?_eq rfl]⟩

theorem exists_earlier_edge (hb : b ∈ g.reversePostorder) (he : b ≠ g.entry) :
    ∃ p ∈ g.reversePostorder, b ∈ g.successorsOf p ∧
      g.reversePostorder.idxOf p < g.reversePostorder.idxOf b := by
  by_cases h : g.blocks.contains g.entry
  · obtain ⟨seen, hex, -⟩ := exists_exploring_reversePostorder h
    have hr : g.Rooted [] g.reversePostorder := by simpa using hex.rooted
    exact hr.exists_idxOf_lt g.nodup_reversePostorder hb he
  · simp [reversePostorder, h] at hb

end Graph

end SiteFusion
