import SiteFusion.Proofs.DominatorTrees

namespace SiteFusion

def Graph.Dominates (g : Graph) (a b : BlockId) : Prop := ∀ l, g.Walk b l → a ∈ l

namespace Dominators

/-- A relation that goes back along the edges, as dominance does. -/
structure Backward (order : List BlockId) (preds : Table BlockId (List BlockId)) (entry : BlockId)
    (R : BlockId → BlockId → Prop) : Prop where
  entry : ∀ x, R x entry → x = entry
  pred : ∀ b ∈ order.tail, ∀ x, R x b → x ≠ b → ∀ q ∈ (preds.get? b).getD [], q ∈ order → R x q

def Finds (t : Table BlockId BlockId) (R : BlockId → BlockId → Prop) : Prop :=
  ∀ x b, t.contains b → R x b → Above t x b

variable {order : List BlockId} {preds : Table BlockId (List BlockId)} {entry : BlockId}
  {t t₀ : Table BlockId BlockId} {a b c d x : BlockId} {done todo : List BlockId}
  {R : BlockId → BlockId → Prop}

namespace Above

theorem antisymm (ht : Tree order entry t) (ha : a ∈ order) (h : Above t a b)
    (h' : Above t b a) : a = b := by
  have hle := h.idxOf_le ht
  have hge := h'.idxOf_le ht
  exact (List.idxOf_inj ha).mp (by omega)

theorem contains_below (h : Above t a b) (ha : t.contains a) : t.contains b := by
  cases h with
  | refl => exact ha
  | up hd _ => exact Table.contains_iff.mpr ⟨_, hd⟩

end Above

theorem Tree.mem_of_contains (ht : Tree order entry t) (hb : t.contains b) : b ∈ order := by
  obtain ⟨d, hd⟩ := Table.contains_iff.mp hb
  exact ht.mem hd

theorem Ordered.mem_tail (ho : Ordered order preds entry) (hb : b ∈ order) (hne : b ≠ entry) :
    b ∈ order.tail := by
  rw [ho.eq_cons] at hb
  exact (List.mem_cons.mp hb).resolve_left hne

theorem Settling.related_above (h : Settling order preds entry t) (ho : Ordered order preds entry)
    (hR : Backward order preds entry R) (hcb : Above t c b) (hb : t.contains b) (hx : R x b)
    (hxc : Above t x c) : R x c := by
  induction hn : order.idxOf b using Nat.strongRecOn generalizing b with
  | _ n ih =>
    by_cases hbc : c = b
    · exact hbc ▸ hx
    obtain ⟨d, hd⟩ := Table.contains_iff.mp hb
    have hcd : Above t c d := (hcb.eq_or hd).resolve_left hbc
    have hbe : b ≠ entry := fun he => hbc ((hcb.eq_entry h.tree he).trans he.symm)
    have hbt := ho.mem_tail (h.tree.mem hd) hbe
    obtain ⟨q, hq, hqo, hlt⟩ := ho.earlier b hbt
    have hdq := h.forward b hbt d hd q hq hqo hlt
    have hxb : x ≠ b := by
      rintro rfl
      exact hbc (hcb.antisymm h.tree (h.tree.mem_of_contains (hcb.contains h.tree hb)) hxc)
    have hxq := hR.pred b hbt x hx hxb q hq hqo
    exact ih _ (by omega) (hcd.trans hdq) (hdq.contains_below (h.tree.placed hd)) hxq rfl

theorem above_insert_or (h : Above t x b) : Above (t.insert c d) x b ∨
    Above t c b ∧ Above (t.insert c d) c b ∧ Above t x c := by
  induction h with
  | refl => exact .inl (.refl _)
  | @up b e he hxe ih =>
    by_cases hbc : b = c
    · subst hbc
      exact .inr ⟨.refl _, .refl _, .up he hxe⟩
    · have he' : (t.insert c d).get? b = some e := by rw [Table.get?_insert, if_neg hbc, he]
      rcases ih with ih | ⟨h₁, h₂, h₃⟩
      · exact .inl (.up he' ih)
      · exact .inr ⟨.up he h₁, .up he' h₂, h₃⟩

namespace Passing

variable (h₀ : Settling order preds entry t₀) (ho : Ordered order preds entry)
  (hR : Backward order preds entry R)
include h₀ ho hR

theorem finds_improve (h : Passing order preds entry t₀ done t) (hf : Finds t R)
    (hs : order.tail = done ++ c :: todo) : Finds (Dominators.improve order preds t c) R := by
  obtain ⟨d, hi, hfit⟩ := h.exists_fits ho hs
  rw [hi]
  have hself : ∀ x, R x c → Above (t.insert c d) x c := by
    intro x hx
    by_cases hxc : x = c
    · exact hxc ▸ .refl _
    have hxd : Above t x d := hfit.greatest x fun q hq hqt =>
      hf x q hqt (hR.pred c (by simp [hs]) x hx hxc q hq (h.tree.mem_of_contains hqt))
    exact .up (by simp) (above_insert h.tree hxd hfit.ahead)
  intro x b hb hx
  by_cases hbc : b = c
  · subst hbc
    exact hself x hx
  have hbt : t.contains b := (Table.contains_insert.mp hb).resolve_left hbc
  rcases above_insert_or (hf x b hbt hx) with hkept | ⟨hcb, hcb', hxc⟩
  · exact hkept
  -- below the moved block nothing was placed anew in this pass
  have hb₀ : t₀.contains b := by
    by_cases hd : b ∈ done
    · have hlt := (ho.idxOf_lt_iff hs).mpr (.inr hd)
      have hle := hcb.idxOf_le h.tree
      omega
    · rwa [Table.contains, h.kept b hd] at hbt
  have hcb₀ := h.shrunk b hb₀ c hcb
  have hxc₀ := h.shrunk c (hcb₀.contains h₀.tree hb₀) x hxc
  exact (hself x (h₀.related_above ho hR hcb₀ hb₀ hx hxc₀)).trans hcb'

theorem finds_foldl (h : Passing order preds entry t₀ done t) (hf : Finds t R)
    (hs : order.tail = done ++ todo) :
    Finds (todo.foldl (Dominators.improve order preds) t) R := by
  induction todo generalizing done t with
  | nil => exact hf
  | cons c todo ih =>
    rw [List.foldl_cons]
    exact ih (h.improve h₀ ho hs) (h.finds_improve h₀ ho hR hf hs) (by simp [hs])

end Passing

theorem Settling.finds_settle (h : Settling order preds entry t) (ho : Ordered order preds entry)
    (hR : Backward order preds entry R) (hf : Finds t R) (n : Nat) :
    Finds (Dominators.settle order preds n t) R := by
  induction n generalizing t with
  | zero => exact hf
  | succ n ih =>
    by_cases he : pass order preds t = t
    · simp only [Dominators.settle, he, ↓reduceIte]
      exact hf
    · simp only [Dominators.settle, he, ↓reduceIte]
      exact ih (h.passing ho).settling ((Passing.start h).finds_foldl h ho hR hf rfl)

theorem finds_start (hR : Backward order preds entry R) :
    Finds (Table.empty.insert entry entry) R := by
  intro x b hb hx
  have hbe : b = entry := by simpa [Table.contains_insert, Table.contains] using hb
  subst hbe
  exact hR.entry x hx ▸ .refl _

theorem isAbove_of_above (ht : Tree order entry t) (n : Nat) (h : Above t a b) (hne : a ≠ b)
    (hn : order.idxOf b < n) : isAbove ⟨t.erase entry, order, entry⟩ a n b = true := by
  induction n generalizing b with
  | zero => omega
  | succ n ih =>
    cases h with
    | refl => exact absurd rfl hne
    | @up _ d hd h =>
      have hbe : b ≠ entry := fun he => hne (((Above.up hd h).eq_entry ht he).trans he.symm)
      simp only [isAbove, idom?, Table.get?_erase, hbe, ↓reduceIte, hd, Bool.or_eq_true,
        decide_eq_true_eq]
      by_cases hda : d = a
      · exact .inl hda
      · have hlt := (ht.lower hd).resolve_left hbe
        exact .inr (ih h (Ne.symm hda) (by omega))

end Dominators

namespace Graph

variable {g : Graph} {b : BlockId}

theorem backward_dominates (hk : g.Keyed) (he : g.blocks.contains g.entry) :
    Dominators.Backward g.reversePostorder g.predecessorTable g.entry g.Dominates where
  entry x hx := by simpa using hx _ (.start he)
  pred b hb x hx hne q hq _ := by
    intro l w
    have hbc := contains_of_mem_reversePostorder (List.mem_of_mem_tail hb)
    rw [getD_predecessorTable hbc] at hq
    exact (List.mem_cons.mp (hx _ (w.step (hk.mem_predecessors.mp hq) hbc))).resolve_left hne

end Graph

namespace Dominators

variable {g : Graph} {a b : BlockId}

/-- The finished tree: its passes have come to an end, and it tells of all blocks that can be
reached what is on every way to them. -/
structure Finished (g : Graph) (t : Table BlockId BlockId) : Prop where
  fixed : pass g.reversePostorder g.predecessorTable t = t
  idoms : (ofGraph g).idoms = t.erase g.entry
  tree : Tree g.reversePostorder g.entry t
  placed : ∀ b ∈ g.reversePostorder, t.contains b
  finds : Finds t g.Dominates

def round (g : Graph) (k : Nat) : Table BlockId BlockId :=
  (pass g.reversePostorder g.predecessorTable)^[k] (Table.empty.insert g.entry g.entry)

theorem settle_eq_iterate (order : List BlockId) (preds : Table BlockId (List BlockId)) (n : Nat)
    (t : Table BlockId BlockId) : ∃ k, settle order preds n t = (pass order preds)^[k] t := by
  induction n generalizing t with
  | zero => exact ⟨0, rfl⟩
  | succ n ih =>
    by_cases he : pass order preds t = t
    · exact ⟨0, by simp [settle, he]⟩
    · obtain ⟨k, hk⟩ := ih (pass order preds t)
      exact ⟨k + 1, by simp [settle, he, hk]⟩

theorem settling_round (hk : g.Keyed) (he : g.blocks.contains g.entry) (k : Nat) :
    Settling g.reversePostorder g.predecessorTable g.entry (round g k) := by
  have ho := Graph.ordered_reversePostorder hk he
  induction k with
  | zero => exact settling_start ho
  | succ k ih =>
    rw [round, Function.iterate_succ_apply']
    exact (ih.passing ho).settling

theorem exists_finished_round (hk : g.Keyed) (he : g.blocks.contains g.entry) :
    ∃ k, Finished g (round g k) := by
  have ho := Graph.ordered_reversePostorder hk he
  have hR := Graph.backward_dominates hk he
  let n := g.reversePostorder.length * (g.reversePostorder.length + 1) + 1
  have hn : g.reversePostorder.length * g.reversePostorder.length < n := by
    simp only [n, Nat.mul_succ]
    omega
  have hfix := (settling_start ho).settle ho n (Nat.lt_of_le_of_lt (height_le _) hn)
  obtain ⟨t, ht, htree, hplaced, -⟩ := exists_settled ho hn
  have hfinds := (settling_start ho).finds_settle ho hR (finds_start hR) n
  obtain ⟨k, hk⟩ := settle_eq_iterate g.reversePostorder g.predecessorTable n
    (Table.empty.insert g.entry g.entry)
  rw [ht] at hfix hfinds hk
  subst hk
  exact ⟨k, hfix.2, congrArg (·.erase g.entry) ht, htree, hplaced, hfinds⟩

theorem dominates_iff (hk : g.Keyed) (he : g.blocks.contains g.entry) :
    (ofGraph g).dominates a b = true ↔ g.Dominates a b := by
  refine ⟨fun h l w => mem_walk_of_dominates hk w h, fun h => ?_⟩
  obtain ⟨k, ht⟩ := exists_finished_round hk he
  rw [dominates, Bool.or_eq_true, Bool.or_eq_true, decide_eq_true_eq, Bool.not_eq_true']
  by_cases hab : a = b
  · exact .inl (.inl hab)
  by_cases hreach : (ofGraph g).isReachable b = true
  · have hb : (round g k).contains b := by
      rw [isReachable, Bool.or_eq_true, decide_eq_true_eq] at hreach
      rcases hreach with hb | hb
      · rw [hb]
        exact Table.contains_iff.mpr ⟨_, ht.tree.root⟩
      · obtain ⟨d, hd⟩ := Table.contains_iff.mp hb
        rw [ht.idoms, Table.get?_erase] at hd
        split at hd
        · cases hd
        · exact Table.contains_iff.mpr ⟨d, hd⟩
    have habove := isAbove_of_above ht.tree _ (ht.finds a b hb h) hab
      (Nat.lt_succ_of_le List.idxOf_le_length)
    rw [← ht.idoms] at habove
    exact .inr habove
  · exact .inl (.inr (Bool.not_eq_true _ ▸ hreach))

theorem exists_idom (hk : g.Keyed) (he : g.blocks.contains g.entry) {l : List BlockId}
    (w : g.Walk b l) (hb : b ≠ g.entry) :
    ∃ d, (ofGraph g).idom? b = some d ∧ d ≠ b ∧ g.Dominates d b ∧
      ∀ a, a ≠ b → g.Dominates a b → g.Dominates a d := by
  obtain ⟨k, ht⟩ := exists_finished_round hk he
  have hbt := ht.placed b (Graph.mem_reversePostorder_iff.mpr ⟨l, w⟩)
  obtain ⟨d, hd⟩ := Table.contains_iff.mp hbt
  have hlt := (ht.tree.lower hd).resolve_left hb
  have hdominates : ∀ {a c}, Above (round g k) a c → g.Dominates a c := by
    intro a c h
    refine (dominates_iff hk he).mp ?_
    by_cases hac : a = c
    · simp [dominates, hac]
    · have habove := isAbove_of_above ht.tree _ h hac (Nat.lt_succ_of_le List.idxOf_le_length)
      rw [← ht.idoms] at habove
      rw [dominates, Bool.or_eq_true]
      exact .inr habove
  refine ⟨d, by simp [idom?, ht.idoms, hb, hd], fun hdb => by simp [hdb] at hlt,
    hdominates (.up hd (.refl d)), fun a ha h => hdominates ?_⟩
  exact ((ht.finds a b hbt h).eq_or hd).resolve_left ha

/-- The analysis of a graph is right. Its loops come to an end: a pass changes nothing any more, and
in every table that comes up on the way, going up from two blocks leads to one above both. The order
lists the blocks that can be reached, each once, the entry first. A block is said to dominate one
that can be reached exactly if it is on every way to it, and the immediate dominator is the closest
of these. -/
theorem ofGraph_sound_and_complete (hk : g.Keyed) (he : g.blocks.contains g.entry) :
    (∃ k, pass g.reversePostorder g.predecessorTable (round g k) = round g k ∧
      (ofGraph g).idoms = (round g k).erase g.entry) ∧
    (∀ k done todo, g.reversePostorder.tail = done ++ todo →
      ∀ t a b, t = done.foldl (improve g.reversePostorder g.predecessorTable) (round g k) →
        t.contains a → t.contains b → Climbs g.reversePostorder t a b
          (meet g.reversePostorder t (2 * g.reversePostorder.length + 1) a b)) ∧
    (ofGraph g).order.Nodup ∧ (ofGraph g).order.head? = some g.entry ∧
    (∀ b, b ∈ (ofGraph g).order ↔ ∃ l, g.Walk b l) ∧
    ∀ b l, g.Walk b l →
      (∀ a, (ofGraph g).dominates a b = true ↔ ∀ l, g.Walk b l → a ∈ l) ∧
      (b ≠ g.entry → ∃ d, (ofGraph g).idom? b = some d ∧ d ≠ b ∧ (∀ l, g.Walk b l → d ∈ l) ∧
        ∀ a, a ≠ b → (∀ l, g.Walk b l → a ∈ l) → ∀ l, g.Walk d l → a ∈ l) := by
  have ho := Graph.ordered_reversePostorder hk he
  obtain ⟨rest, hrest⟩ := Graph.reversePostorder_eq_cons he
  refine ⟨?_, fun k done todo hs t a b ht ha hb => ?_, g.nodup_reversePostorder, ?_,
    fun b => Graph.mem_reversePostorder_iff, fun b l w => ⟨fun a => dominates_iff hk he,
      exists_idom hk he w⟩⟩
  · obtain ⟨k, ht⟩ := exists_finished_round hk he
    exact ⟨k, ht.fixed, ht.idoms⟩
  · have h := settling_round hk he k
    have hp := (Passing.start h).foldl h ho hs
    rw [← ht] at hp
    exact hp.tree.climbs_meet ho ha hb
  · rw [ofGraph, hrest]
    rfl

/-- A graph whose first block can be come back to, with a loop that is entered at two blocks, a
block that leads to itself and to nowhere, and one that cannot be reached. -/
def tangle : Graph :=
  ⟨.ofList [
    (⟨0⟩, ⟨⟨0⟩, none, [], [], .plain ⟨0⟩ (.condBranch (.const (.bool true)) ⟨1⟩ ⟨2⟩)⟩),
    (⟨1⟩, ⟨⟨1⟩, none, [], [], .plain ⟨1⟩ (.condBranch (.const (.bool true)) ⟨2⟩ ⟨3⟩)⟩),
    (⟨2⟩, ⟨⟨2⟩, none, [], [], .plain ⟨2⟩ (.switch (.int 0) [(0, ⟨1⟩), (1, ⟨0⟩)] ⟨3⟩)⟩),
    (⟨3⟩, ⟨⟨3⟩, none, [], [], .plain ⟨3⟩ (.switch (.int 0) [(0, ⟨3⟩), (1, ⟨9⟩)] ⟨4⟩)⟩),
    (⟨4⟩, ⟨⟨4⟩, none, [], [], .plain ⟨4⟩ (.ret none)⟩),
    (⟨5⟩, ⟨⟨5⟩, none, [], [], .plain ⟨5⟩ (.branch ⟨4⟩)⟩)], ⟨0⟩, 6, 6⟩

theorem tangle_sound_and_complete :
    (∀ e ∈ tangle.blocks.entries, e.2.id = e.1) ∧ tangle.blocks.contains tangle.entry ∧
    (ofGraph tangle).idom? ⟨3⟩ = some ⟨0⟩ ∧
    (∀ l, tangle.Walk ⟨4⟩ l → ⟨3⟩ ∈ l) ∧ ¬ ∀ l, tangle.Walk ⟨4⟩ l → ⟨1⟩ ∈ l := by
  have hk : ∀ e ∈ tangle.blocks.entries, e.2.id = e.1 := by decide
  have he : tangle.blocks.contains tangle.entry := by decide
  have htree : ofGraph tangle = ⟨.ofList [(⟨1⟩, ⟨0⟩), (⟨2⟩, ⟨0⟩), (⟨3⟩, ⟨0⟩), (⟨4⟩, ⟨3⟩)],
    [⟨0⟩, ⟨1⟩, ⟨2⟩, ⟨3⟩, ⟨4⟩], ⟨0⟩⟩ := by cbv
  obtain ⟨-, -, -, -, hmem, h⟩ := ofGraph_sound_and_complete
    (fun k b hb => hk _ (Table.get?_eq_some_iff.mp hb)) he
  rw [htree] at hmem h
  obtain ⟨l, w⟩ := (hmem ⟨4⟩).mp (by decide)
  refine ⟨hk, he, by rw [htree]; decide, ((h ⟨4⟩ l w).1 ⟨3⟩).mp (by decide), fun hall => ?_⟩
  have hdom := ((h ⟨4⟩ l w).1 ⟨1⟩).mpr hall
  exact absurd hdom (by decide)

end Dominators

end SiteFusion
