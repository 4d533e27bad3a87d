import Mathlib
import SiteFusion.Proofs.Postorder

namespace SiteFusion

open List

namespace Dominators

/-- A block is met on the way up from another, where the way begins. -/
inductive Above (t : Table BlockId BlockId) : BlockId → BlockId → Prop
  | refl (b : BlockId) : Above t b b
  | up {a b d : BlockId} (hd : t.get? b = some d) (h : Above t a d) : Above t a b

/-- The order in which blocks are placed. The entry is the first, and each of the others has a
predecessor that comes earlier. -/
structure Ordered (order : List BlockId) (preds : Table BlockId (List BlockId))
    (entry : BlockId) : Prop where
  nodup : order.Nodup
  eq_cons : order = entry :: order.tail
  earlier : ∀ b ∈ order.tail, ∃ p ∈ (preds.get? b).getD [], p ∈ order ∧
    order.idxOf p < order.idxOf b

/-- The blocks that were placed form a tree whose ways up lead to the entry. -/
structure Tree (order : List BlockId) (entry : BlockId) (t : Table BlockId BlockId) : Prop where
  root : t.get? entry = some entry
  mem : ∀ {b d}, t.get? b = some d → b ∈ order
  placed : ∀ {b d}, t.get? b = some d → t.contains d
  lower : ∀ {b d}, t.get? b = some d → b = entry ∨ order.idxOf d < order.idxOf b

variable {order : List BlockId} {preds : Table BlockId (List BlockId)} {entry : BlockId}
  {t t' : Table BlockId BlockId} {a b c d x : BlockId}

theorem eq_of_get? (h : t.get? b = some c) (h' : t.get? b = some d) : c = d := by
  rw [h] at h'
  exact Option.some.inj h'

namespace Above

theorem trans (h : Above t a b) (h' : Above t b c) : Above t a c := by
  induction h' with
  | refl => exact h
  | up hd _ ih => exact .up hd ih

theorem eq_or (h : Above t a b) (hd : t.get? b = some d) : a = b ∨ Above t a d := by
  cases h with
  | refl => exact .inl rfl
  | up hd' h =>
    obtain rfl := eq_of_get? hd hd'
    exact .inr h

theorem eq_entry (ht : Tree order entry t) (h : Above t a b) (hb : b = entry) : a = entry := by
  induction h with
  | refl => exact hb
  | @up b d hd _ ih =>
    subst hb
    exact ih (eq_of_get? hd ht.root)

theorem idxOf_le (ht : Tree order entry t) (h : Above t a b) : order.idxOf a ≤ order.idxOf b := by
  induction h with
  | refl => exact Nat.le_refl _
  | @up b d hd h ih =>
    rcases ht.lower hd with rfl | hl
    · rw [eq_of_get? hd ht.root] at ih
      exact ih
    · omega

theorem contains (ht : Tree order entry t) (h : Above t a b) (hb : t.contains b) :
    t.contains a := by
  induction h with
  | refl => exact hb
  | up hd _ ih => exact ih (ht.placed hd)

theorem congr (ht : Tree order entry t)
    (hagree : ∀ b, order.idxOf b < order.idxOf c → t'.get? b = t.get? b) (h : Above t a b)
    (hb : order.idxOf b < order.idxOf c) : Above t' a b := by
  induction h with
  | refl => exact .refl _
  | @up b d hd h ih =>
    refine .up ((hagree b hb).trans hd) (ih ?_)
    have hle : order.idxOf d ≤ order.idxOf b := Above.idxOf_le ht (.up hd (.refl d))
    omega

end Above

/-- A block is above two others, and below all blocks that are. -/
structure IsMeet (t : Table BlockId BlockId) (m a b : BlockId) : Prop where
  left : Above t m a
  right : Above t m b
  greatest : ∀ x, Above t x a → Above t x b → Above t x m

namespace IsMeet

theorem symm {m : BlockId} (h : IsMeet t m a b) : IsMeet t m b a :=
  ⟨h.right, h.left, fun x hb ha => h.greatest x ha hb⟩

theorem up {m : BlockId} (ht : Tree order entry t) (hd : t.get? a = some d)
    (hlt : order.idxOf b < order.idxOf a) (h : IsMeet t m d b) : IsMeet t m a b where
  left := .up hd h.left
  right := h.right
  greatest x hxa hxb := by
    rcases hxa.eq_or hd with rfl | hx
    · have hle := hxb.idxOf_le ht
      omega
    · exact h.greatest x hx hxb

end IsMeet

theorem Ordered.idxOf_entry (ho : Ordered order preds entry) : order.idxOf entry = 0 := by
  rw [ho.eq_cons, idxOf_cons_self]

theorem Tree.idxOf_lt (ht : Tree order entry t) (ho : Ordered order preds entry)
    (hd : t.get? a = some d) (hlt : order.idxOf b < order.idxOf a) :
    order.idxOf d < order.idxOf a := by
  rcases ht.lower hd with rfl | hl
  · have := ho.idxOf_entry
    omega
  · exact hl

/-- Going up from two blocks, each time from the later one, ends where both ways come together. -/
inductive Climbs (order : List BlockId) (t : Table BlockId BlockId) :
    BlockId → BlockId → BlockId → Prop
  | met (a : BlockId) : Climbs order t a a a
  | left {a b d m : BlockId} (hlt : order.idxOf b < order.idxOf a) (hd : t.get? a = some d)
      (hne : d ≠ a) (h : Climbs order t d b m) : Climbs order t a b m
  | right {a b d m : BlockId} (hlt : order.idxOf a < order.idxOf b) (hd : t.get? b = some d)
      (hne : d ≠ b) (h : Climbs order t a d m) : Climbs order t a b m

theorem climbs_meet (ht : Tree order entry t) (ho : Ordered order preds entry) (n : Nat)
    (ha : t.contains a) (hb : t.contains b) (hn : order.idxOf a + order.idxOf b < n) :
    Climbs order t a b (meet order t n a b) := by
  induction n generalizing a b with
  | zero => omega
  | succ n ih =>
    obtain ⟨d, hd⟩ := Table.contains_iff.mp ha
    obtain ⟨e, he⟩ := Table.contains_iff.mp hb
    by_cases hab : a = b
    · subst hab
      simp only [meet, ↓reduceIte]
      exact .met a
    · by_cases hlt : order.idxOf b < order.idxOf a
      · have hda := ht.idxOf_lt ho hd hlt
        have hne : d ≠ a := fun h => by simp [h] at hda
        simp only [meet, hab, hlt, hd, hne, ↓reduceIte]
        exact .left hlt hd hne (ih (ht.placed hd) hb (by omega))
      · have hle : order.idxOf a ≠ order.idxOf b :=
          fun h => hab ((idxOf_inj (ht.mem hd)).mp h)
        have heb := ht.idxOf_lt (a := b) (b := a) ho he (by omega)
        have hne : e ≠ b := fun h => by simp [h] at heb
        simp only [meet, hab, hlt, he, hne, ↓reduceIte]
        exact .right (by omega) he hne (ih ha (ht.placed he) (by omega))

theorem Tree.climbs_meet (ht : Tree order entry t) (ho : Ordered order preds entry)
    (ha : t.contains a) (hb : t.contains b) :
    Climbs order t a b (meet order t (2 * order.length + 1) a b) := by
  obtain ⟨d, hd⟩ := Table.contains_iff.mp ha
  obtain ⟨e, he⟩ := Table.contains_iff.mp hb
  have hla := idxOf_lt_length_of_mem (ht.mem hd)
  have hlb := idxOf_lt_length_of_mem (ht.mem he)
  exact Dominators.climbs_meet ht ho _ ha hb (by omega)

theorem Climbs.isMeet (ht : Tree order entry t) {m : BlockId} (h : Climbs order t a b m) :
    IsMeet t m a b := by
  induction h with
  | met a => exact ⟨.refl a, .refl a, fun x hx _ => hx⟩
  | left hlt hd _ _ ih => exact ih.up ht hd hlt
  | right hlt hd _ _ ih => exact (ih.symm.up ht hd hlt).symm

theorem foldl_meet (ht : Tree order entry t) (ho : Ordered order preds entry) (ps : List BlockId)
    (p : BlockId) (hp : ∀ q ∈ p :: ps, t.contains q) :
    (∀ q ∈ p :: ps, Above t (ps.foldl (meet order t (2 * order.length + 1)) p) q) ∧
      ∀ x, (∀ q ∈ p :: ps, Above t x q) →
        Above t x (ps.foldl (meet order t (2 * order.length + 1)) p) := by
  induction ps generalizing p with
  | nil =>
    refine ⟨fun q hq => ?_, fun x hx => hx p (by simp)⟩
    obtain rfl : q = p := by simpa using hq
    exact .refl q
  | cons q ps ih =>
    have hm := (ht.climbs_meet ho (hp p (by simp)) (hp q (by simp))).isMeet ht
    have hmp := hm.left.contains ht (hp p (by simp))
    obtain ⟨hbelow, hgreatest⟩ := ih (meet order t (2 * order.length + 1) p q) fun r hr => by
      rcases mem_cons.mp hr with rfl | hr
      · exact hmp
      · exact hp r (by simp [hr])
    rw [foldl_cons]
    refine ⟨fun r hr => ?_, fun x hx => hgreatest x fun r hr => ?_⟩
    · rcases mem_cons.mp hr with rfl | hr
      · exact (hbelow _ (mem_cons_self ..)).trans hm.left
      · rcases mem_cons.mp hr with rfl | hr
        · exact (hbelow _ (mem_cons_self ..)).trans hm.right
        · exact hbelow r (mem_cons_of_mem _ hr)
    · rcases mem_cons.mp hr with rfl | hr
      · exact hm.greatest x (hx p (by simp)) (hx q (by simp))
      · exact hx r (by simp [hr])

theorem meetAll_eq_some (ht : Tree order entry t) (ho : Ordered order preds entry)
    {ps : List BlockId} {p : BlockId} (hp : p ∈ ps) (hpt : t.contains p) :
    ∃ d, meetAll order t ps = some d ∧ (∀ q ∈ ps, t.contains q → Above t d q) ∧
      ∀ x, (∀ q ∈ ps, t.contains q → Above t x q) → Above t x d := by
  have hm : p ∈ ps.filter t.contains := mem_filter.mpr ⟨hp, hpt⟩
  cases hf : ps.filter t.contains with
  | nil =>
    rw [hf] at hm
    cases hm
  | cons q qs =>
    have hmem : ∀ r, r ∈ q :: qs ↔ r ∈ ps ∧ t.contains r := fun r => by
      rw [← hf, mem_filter]
    obtain ⟨hbelow, hgreatest⟩ := foldl_meet ht ho qs q fun r hr => ((hmem r).mp hr).2
    refine ⟨_, by rw [meetAll, hf], fun r hr hrt => hbelow r ((hmem r).mpr ⟨hr, hrt⟩), ?_⟩
    intro x hx
    refine hgreatest x fun r hr => ?_
    obtain ⟨hrp, hrt⟩ := (hmem r).mp hr
    exact hx r hrp hrt

/-- Between passes: the parent of a block is the closest that its placed predecessors allow, and it
is above the predecessors that come earlier. -/
structure Settling (order : List BlockId) (preds : Table BlockId (List BlockId)) (entry : BlockId)
    (t : Table BlockId BlockId) : Prop where
  tree : Tree order entry t
  meets : ∀ c ∈ order.tail, ∀ d, t.get? c = some d → ∀ x,
    (∀ q ∈ (preds.get? c).getD [], t.contains q → Above t x q) → Above t x d
  forward : ∀ c ∈ order.tail, ∀ d, t.get? c = some d → ∀ q ∈ (preds.get? c).getD [], q ∈ order →
    order.idxOf q < order.idxOf c → Above t d q

/-- In the course of a pass that began with `t₀`, the blocks `done` have been gone through. What was
above a block in `t` was above it in `t₀`, and blocks have only moved up. -/
structure Passing (order : List BlockId) (preds : Table BlockId (List BlockId)) (entry : BlockId)
    (t₀ : Table BlockId BlockId) (done : List BlockId) (t : Table BlockId BlockId) : Prop where
  tree : Tree order entry t
  kept : ∀ b, b ∉ done → t.get? b = t₀.get? b
  placed : ∀ b ∈ done, t.contains b
  shrunk : ∀ y, t₀.contains y → ∀ x, Above t x y → Above t₀ x y
  raised : ∀ c ∈ done, ∀ u v, t₀.get? c = some u → t.get? c = some v → Above t v u
  meets : ∀ c ∈ done, ∀ d, t.get? c = some d → ∀ x,
    (∀ q ∈ (preds.get? c).getD [], t.contains q → Above t x q) → Above t x d
  forward : ∀ c ∈ done, ∀ d, t.get? c = some d → ∀ q ∈ (preds.get? c).getD [], q ∈ order →
    order.idxOf q < order.idxOf c → Above t d q
  below : ∀ c ∈ done, ∀ d, t.get? c = some d → ∀ q ∈ (preds.get? c).getD [], t₀.contains q →
    Above t₀ d q

variable {t₀ : Table BlockId BlockId} {done todo : List BlockId}

namespace Passing

theorem start (h : Settling order preds entry t₀) : Passing order preds entry t₀ [] t₀ where
  tree := h.tree
  kept _ _ := rfl
  placed := by simp
  shrunk _ _ _ hx := hx
  raised := by simp
  meets := by simp
  forward := by simp
  below := by simp

end Passing

theorem idxOf_lt_iff_of_append {l r : List BlockId} (hn : (l ++ c :: r).Nodup) :
    (l ++ c :: r).idxOf b < (l ++ c :: r).idxOf c ↔ b ∈ l := by
  have hc : c ∉ l := fun hm => (nodup_append.mp hn).2.2 c hm c (by simp) rfl
  rw [idxOf_append_of_notMem hc, idxOf_cons_self]
  by_cases hb : b ∈ l
  · simpa [idxOf_append_of_mem hb, hb] using idxOf_lt_length_of_mem hb
  · simp [idxOf_append_of_notMem hb, hb]

theorem Ordered.idxOf_lt_iff (ho : Ordered order preds entry)
    (hs : order.tail = done ++ c :: todo) :
    order.idxOf b < order.idxOf c ↔ b = entry ∨ b ∈ done := by
  have he : order = (entry :: done) ++ c :: todo := by rw [ho.eq_cons, hs]; rfl
  rw [he, idxOf_lt_iff_of_append (he ▸ ho.nodup), mem_cons]

/-- A parent for a block: the closest block above its placed predecessors. -/
structure Fits (order : List BlockId) (preds : Table BlockId (List BlockId))
    (t : Table BlockId BlockId) (c d : BlockId) : Prop where
  below : ∀ q ∈ (preds.get? c).getD [], t.contains q → Above t d q
  greatest : ∀ x, (∀ q ∈ (preds.get? c).getD [], t.contains q → Above t x q) → Above t x d
  ahead : order.idxOf d < order.idxOf c
  placed : t.contains d

namespace Passing

theorem contains_of_lt (h : Passing order preds entry t₀ done t) (ho : Ordered order preds entry)
    (hs : order.tail = done ++ c :: todo) (hlt : order.idxOf b < order.idxOf c) :
    t.contains b := by
  rcases (ho.idxOf_lt_iff hs).mp hlt with rfl | hb
  · exact Table.contains_iff.mpr ⟨_, h.tree.root⟩
  · exact h.placed b hb

theorem exists_fits (h : Passing order preds entry t₀ done t) (ho : Ordered order preds entry)
    (hs : order.tail = done ++ c :: todo) :
    ∃ d, improve order preds t c = t.insert c d ∧ Fits order preds t c d := by
  obtain ⟨p, hp, -, hlt⟩ := ho.earlier c (by simp [hs])
  have hpt := h.contains_of_lt ho hs hlt
  obtain ⟨d, hd, hbelow, hgreatest⟩ := meetAll_eq_some h.tree ho hp hpt
  have hdp := hbelow p hp hpt
  refine ⟨d, by rw [improve, hd], hbelow, hgreatest, ?_, hdp.contains h.tree hpt⟩
  have hle := hdp.idxOf_le h.tree
  omega

variable {u : BlockId}

theorem above_of_above (h : Passing order preds entry t₀ done t) (h₀ : Tree order entry t₀)
    (ho : Ordered order preds entry) (hs : order.tail = done ++ c :: todo) {q : BlockId}
    (hu : Above t₀ u q) (hq : order.idxOf q < order.idxOf c) (hx : Above t x q) (hxu : Above t₀ x u) :
    Above t x u := by
  induction hu with
  | refl => exact hx
  | @up q e he hue ih =>
    have hle : order.idxOf e ≤ order.idxOf q := Above.idxOf_le h₀ (.up he (.refl e))
    refine ih (by omega) ?_
    rcases (ho.idxOf_lt_iff hs).mp hq with rfl | hqd
    · rw [eq_of_get? he h₀.root]
      exact hx
    · obtain ⟨v, hv⟩ := Table.contains_iff.mp (h.placed q hqd)
      rcases hx.eq_or hv with rfl | hx
      · rcases h₀.lower he with rfl | hlt
        · rw [eq_of_get? he h₀.root]
          exact .refl _
        · have h₁ := hue.idxOf_le h₀
          have h₂ := hxu.idxOf_le h₀
          omega
      · exact hx.trans (h.raised q hqd e v he hv)

theorem above_parent (h : Passing order preds entry t₀ done t) (h₀ : Settling order preds entry t₀)
    (ho : Ordered order preds entry) (hs : order.tail = done ++ c :: todo)
    (hf : Fits order preds t c d) (hu : t₀.get? c = some u) : Above t d u := by
  have hc : c ∈ order.tail := by simp [hs]
  obtain ⟨p, hp, hpo, hlt⟩ := ho.earlier c hc
  have hdp := hf.below p hp (h.contains_of_lt ho hs hlt)
  refine h.above_of_above h₀.tree ho hs (h₀.forward c hc u hu p hp hpo hlt) hlt hdp ?_
  refine h₀.meets c hc u hu d fun q hq hq₀ => ?_
  refine h.shrunk q hq₀ d (hf.below q hq ?_)
  by_cases hqd : q ∈ done
  · exact h.placed q hqd
  · rw [Table.contains, h.kept q hqd]
    exact hq₀

end Passing

section Insert

variable (ht : Tree order entry t) (hf : Fits order preds t c d)
include ht hf

theorem tree_insert (ho : Ordered order preds entry) (hc : c ∈ order.tail) :
    Tree order entry (t.insert c d) where
  root := by
    have hne : entry ≠ c := by
      rintro rfl
      have := hf.ahead
      rw [ho.idxOf_entry] at this
      omega
    rw [Table.get?_insert, if_neg hne]
    exact ht.root
  mem {b e} hb := by
    rw [Table.get?_insert] at hb
    split at hb
    · subst_vars
      exact mem_of_mem_tail hc
    · exact ht.mem hb
  placed {b e} hb := by
    rw [Table.get?_insert] at hb
    split at hb
    · cases hb
      exact Table.contains_insert.mpr (.inr hf.placed)
    · exact Table.contains_insert.mpr (.inr (ht.placed hb))
  lower {b e} hb := by
    rw [Table.get?_insert] at hb
    split at hb
    · cases hb
      subst_vars
      exact .inr hf.ahead
    · exact ht.lower hb

omit hf in
theorem above_insert (h : Above t a b) (hlt : order.idxOf b < order.idxOf c) :
    Above (t.insert c d) a b := by
  refine h.congr ht (fun b hb => ?_) hlt
  have hne : b ≠ c := fun hbc => by simp [hbc] at hb
  rw [Table.get?_insert, if_neg hne]

theorem above_of_above_insert (hu : ∀ u, t.get? c = some u → Above t d u) (hb : t.contains b)
    (h : Above (t.insert c d) a b) : Above t a b := by
  induction h with
  | refl => exact .refl _
  | @up b e he h ih =>
    rw [Table.get?_insert] at he
    split at he
    · rename_i hbc
      subst hbc
      cases he
      obtain ⟨u, hbu⟩ := Table.contains_iff.mp hb
      exact .up hbu ((ih hf.placed).trans (hu u hbu))
    · exact .up he (ih (ht.placed he))

end Insert

namespace Passing

theorem contains_of_start (h : Passing order preds entry t₀ done t) (hb : t₀.contains b) :
    t.contains b := by
  by_cases hd : b ∈ done
  · exact h.placed b hd
  · rw [Table.contains, h.kept b hd]
    exact hb

theorem improve (h : Passing order preds entry t₀ done t) (h₀ : Settling order preds entry t₀)
    (ho : Ordered order preds entry) (hs : order.tail = done ++ c :: todo) :
    Passing order preds entry t₀ (done ++ [c]) (improve order preds t c) := by
  obtain ⟨d, hi, hf⟩ := h.exists_fits ho hs
  rw [hi]
  have hc : c ∈ order.tail := by simp [hs]
  have hcd : c ∉ done := fun hm => by
    have hlt := (ho.idxOf_lt_iff (b := c) hs).mpr (.inr hm)
    omega
  have hu : ∀ u, t.get? c = some u → Above t d u := fun u hu =>
    h.above_parent h₀ ho hs hf (by rw [← h.kept c hcd]; exact hu)
  have hlt : ∀ {b}, b ∈ done → order.idxOf b < order.idxOf c :=
    fun hb => (ho.idxOf_lt_iff hs).mpr (.inr hb)
  have hself : (t.insert c d).get? c = some d := by simp
  have hother : ∀ {b}, b ≠ c → (t.insert c d).get? b = t.get? b := fun hb => by simp [hb]
  have hne : ∀ {b}, b ∈ done → b ≠ c := fun hb hbc => hcd (hbc ▸ hb)
  have hcont : ∀ {b}, t.contains b → (t.insert c d).contains b :=
    fun hb => Table.contains_insert.mpr (.inr hb)
  have hfwd : ∀ {a b}, Above t a b → order.idxOf b < order.idxOf c → Above (t.insert c d) a b :=
    fun hab hb => above_insert h.tree hab hb
  have hback : ∀ {a b}, t.contains b → Above (t.insert c d) a b → Above t a b :=
    fun hb hab => above_of_above_insert h.tree hf hu hb hab
  have hparent : ∀ {b e}, b ∈ done → t.get? b = some e → order.idxOf e < order.idxOf c :=
    fun {b e} hb he => Nat.lt_of_le_of_lt
      (Above.idxOf_le h.tree (.up he (.refl e))) (hlt hb)
  constructor
  case tree => exact tree_insert h.tree hf ho hc
  case kept =>
    intro b hb
    rw [mem_append, mem_singleton, not_or] at hb
    rw [hother hb.2, h.kept b hb.1]
  case placed =>
    intro b hb
    rcases mem_append.mp hb with hb | hb
    · exact hcont (h.placed b hb)
    · exact Table.contains_insert.mpr (.inl (mem_singleton.mp hb))
  case shrunk =>
    intro y hy x hx
    exact h.shrunk y hy x (hback (h.contains_of_start hy) hx)
  case raised =>
    intro b hb u v hbu hbv
    rcases mem_append.mp hb with hb | hb
    · rw [hother (hne hb)] at hbv
      refine hfwd (h.raised b hb u v hbu hbv) (Nat.lt_of_le_of_lt ?_ (hlt hb))
      exact Above.idxOf_le h₀.tree (.up hbu (.refl u))
    · obtain rfl := mem_singleton.mp hb
      obtain rfl := eq_of_get? hself hbv
      have hbu' : t.get? b = some u := by rw [h.kept b hcd]; exact hbu
      refine hfwd (hu u hbu') ?_
      rcases h₀.tree.lower hbu with rfl | hl
      · have hz := ho.idxOf_entry
        have hf := hf.ahead
        omega
      · exact hl
  case meets =>
    intro b hb e he x hx
    have hx' : ∀ q ∈ (preds.get? b).getD [], t.contains q → Above t x q :=
      fun q hq hqt => hback hqt (hx q hq (hcont hqt))
    rcases mem_append.mp hb with hb | hb
    · rw [hother (hne hb)] at he
      exact hfwd (h.meets b hb e he x hx') (hparent hb he)
    · obtain rfl := mem_singleton.mp hb
      obtain rfl := eq_of_get? hself he
      exact hfwd (hf.greatest x hx') hf.ahead
  case forward =>
    intro b hb e he q hq hqo hqlt
    rcases mem_append.mp hb with hb | hb
    · rw [hother (hne hb)] at he
      exact hfwd (h.forward b hb e he q hq hqo hqlt) (Nat.lt_trans hqlt (hlt hb))
    · obtain rfl := mem_singleton.mp hb
      obtain rfl := eq_of_get? hself he
      exact hfwd (hf.below q hq (h.contains_of_lt ho hs hqlt)) hqlt
  case below =>
    intro b hb e he q hq hq₀
    rcases mem_append.mp hb with hb | hb
    · rw [hother (hne hb)] at he
      exact h.below b hb e he q hq hq₀
    · obtain rfl := mem_singleton.mp hb
      obtain rfl := eq_of_get? hself he
      exact h.shrunk q hq₀ d (hf.below q hq (h.contains_of_start hq₀))

theorem foldl (h₀ : Settling order preds entry t₀) (ho : Ordered order preds entry)
    (h : Passing order preds entry t₀ done t) {l : List BlockId}
    (hs : order.tail = done ++ (todo ++ l)) :
    Passing order preds entry t₀ (done ++ todo)
      (todo.foldl (Dominators.improve order preds) t) := by
  induction todo generalizing done t with
  | nil => simpa using h
  | cons c todo ih =>
    rw [foldl_cons, append_cons]
    exact ih (h.improve h₀ ho hs) (by simp [hs])

theorem settling (h : Passing order preds entry t₀ order.tail t) :
    Settling order preds entry t :=
  ⟨h.tree, h.meets, h.forward⟩

end Passing

theorem Settling.passing (h : Settling order preds entry t) (ho : Ordered order preds entry) :
    Passing order preds entry t order.tail (pass order preds t) :=
  (Passing.start h).foldl h ho (append_nil _).symm

/-- How far down a block is, counted in the order. -/
def depth (order : List BlockId) (t : Table BlockId BlockId) (b : BlockId) : Nat :=
  match t.get? b with
  | none => order.length
  | some d => order.idxOf d

def height (order : List BlockId) (t : Table BlockId BlockId) : Nat :=
  (order.tail.map (depth order t)).sum

theorem Passing.depth_le (h : Passing order preds entry t₀ order.tail t) (hb : b ∈ order.tail) :
    depth order t b ≤ depth order t₀ b ∧
      (depth order t b = depth order t₀ b → t.get? b = t₀.get? b) := by
  obtain ⟨v, hv⟩ := Table.contains_iff.mp (h.placed b hb)
  obtain ⟨e, he⟩ := Table.contains_iff.mp (h.tree.placed hv)
  have hvo := h.tree.mem he
  have hlt := idxOf_lt_length_of_mem hvo
  cases hu : t₀.get? b with
  | none =>
    simp only [depth, hv, hu]
    exact ⟨Nat.le_of_lt hlt, fun h => by omega⟩
  | some u =>
    simp only [depth, hv, hu]
    refine ⟨(h.raised b hb u v hu hv).idxOf_le h.tree, fun h => ?_⟩
    rw [(idxOf_inj hvo).mp h]

theorem keys_foldl_improve (todo : List BlockId) (h : ∀ b ∈ todo, t.contains b) :
    (todo.foldl (improve order preds) t).keys = t.keys := by
  induction todo generalizing t with
  | nil => rfl
  | cons c todo ih =>
    have hk : (improve order preds t c).keys = t.keys := by
      unfold improve
      split
      · rfl
      · exact Table.keys_insert_of_contains (h c (by simp)) _
    rw [foldl_cons, ih fun b hb => ?_, hk]
    rw [Table.contains_iff, ← Table.mem_keys_iff, hk, Table.mem_keys_iff, ← Table.contains_iff]
    exact h b (mem_cons_of_mem _ hb)

theorem Settling.height_pass_lt (h : Settling order preds entry t)
    (ho : Ordered order preds entry) (hne : pass order preds t ≠ t) :
    height order (pass order preds t) < height order t := by
  have hp := h.passing ho
  refine sum_lt_sum _ _ (fun b hb => (hp.depth_le hb).1) ?_
  by_contra hno
  have hge : ∀ b ∈ order.tail, depth order t b ≤ depth order (pass order preds t) b :=
    fun b hb => Nat.not_lt.mp fun hlt => hno ⟨b, hb, hlt⟩
  have heq : ∀ b, (pass order preds t).get? b = t.get? b := fun b => by
    by_cases hb : b ∈ order.tail
    · have hle := hp.depth_le hb
      exact hle.2 (Nat.le_antisymm hle.1 (hge b hb))
    · exact hp.kept b hb
  refine hne (Table.ext_of_keys (keys_foldl_improve _ fun b hb => ?_) heq)
  rw [Table.contains, ← heq b]
  exact hp.placed b hb

theorem Settling.settle (h : Settling order preds entry t) (ho : Ordered order preds entry)
    (n : Nat) (hn : height order t < n) :
    Settling order preds entry (settle order preds n t) ∧
      pass order preds (Dominators.settle order preds n t) = Dominators.settle order preds n t := by
  induction n generalizing t with
  | zero => omega
  | succ n ih =>
    by_cases he : pass order preds t = t
    · simp only [Dominators.settle, he, ↓reduceIte]
      exact ⟨h, trivial⟩
    · simp only [Dominators.settle, he, ↓reduceIte]
      have hlt := h.height_pass_lt ho he
      exact ih (h.passing ho).settling (by omega)

theorem settling_start (ho : Ordered order preds entry) :
    Settling order preds entry (Table.empty.insert entry entry) := by
  have hget : ∀ {b d}, (Table.empty.insert entry entry).get? b = some d → b = entry ∧ d = entry :=
    fun {b d} hb => by
      rw [Table.get?_insert] at hb
      split at hb
      · exact ⟨‹_›, (Option.some.inj hb).symm⟩
      · cases hb
  have hroot : (Table.empty.insert entry entry).get? entry = some entry := by simp
  have htail : ∀ {c d}, c ∈ order.tail → (Table.empty.insert entry entry).get? c ≠ some d := by
    intro c d hc hd
    have hn := ho.nodup
    rw [ho.eq_cons, nodup_cons] at hn
    exact hn.1 ((hget hd).1 ▸ hc)
  constructor
  case tree =>
    refine ⟨hroot, fun hb => ?_, fun hb => ?_, fun hb => .inl (hget hb).1⟩
    · rw [(hget hb).1, ho.eq_cons]
      exact mem_cons_self ..
    · rw [(hget hb).2]
      exact Table.contains_iff.mpr ⟨_, hroot⟩
  case meets => exact fun c hc d hd => absurd hd (htail hc)
  case forward => exact fun c hc d hd => absurd hd (htail hc)

theorem height_le (t : Table BlockId BlockId) : height order t ≤ order.length * order.length := by
  have hb : ∀ n ∈ order.tail.map (depth order t), n ≤ order.length := by
    intro n hn
    obtain ⟨b, -, rfl⟩ := List.mem_map.mp hn
    unfold depth
    split
    · exact Nat.le_refl _
    · exact idxOf_le_length
  have hs := sum_le_card_nsmul _ _ hb
  rw [length_map, length_tail, smul_eq_mul] at hs
  exact hs.trans (Nat.mul_le_mul_right _ (Nat.sub_le _ _))

theorem exists_settled (ho : Ordered order preds entry) {n : Nat}
    (hn : order.length * order.length < n) :
    ∃ t, settle order preds n (Table.empty.insert entry entry) = t ∧ Tree order entry t ∧
      (∀ b ∈ order, t.contains b) ∧
      ∀ c ∈ order.tail, ∀ d, t.get? c = some d → ∀ q ∈ (preds.get? c).getD [], t.contains q →
        Above t d q := by
  obtain ⟨h, hfix⟩ := (settling_start ho).settle ho n (Nat.lt_of_le_of_lt (height_le _) hn)
  have hp := h.passing ho
  rw [hfix] at hp
  refine ⟨_, rfl, h.tree, fun b hb => ?_, hp.below⟩
  rw [ho.eq_cons] at hb
  rcases mem_cons.mp hb with rfl | hb
  · exact Table.contains_iff.mpr ⟨_, h.tree.root⟩
  · exact hp.placed b hb

end Dominators

namespace Graph

variable {g : Graph} {a b : BlockId} {l : List BlockId}

def Keyed (g : Graph) : Prop := ∀ k b, g.block? k = some b → b.id = k

theorem Keyed.mem_predecessors (hk : g.Keyed) : a ∈ g.predecessors b ↔ b ∈ g.successorsOf a := by
  rw [mem_successorsOf]
  constructor
  · intro h
    obtain ⟨block, hm, rfl⟩ := List.mem_map.mp h
    obtain ⟨hv, hs⟩ := mem_filter.mp hm
    obtain ⟨k, hb⟩ := Table.mem_values_iff.mp hv
    rw [hk k block hb]
    exact ⟨block, hb, contains_iff_mem.mp hs⟩
  · rintro ⟨block, hb, hs⟩
    refine List.mem_map.mpr ⟨block, mem_filter.mpr ⟨?_, contains_iff_mem.mpr hs⟩, ?_⟩
    · exact Table.mem_values_iff.mpr ⟨a, hb⟩
    · exact hk a block hb

theorem getD_predecessorTable (h : g.blocks.contains b) :
    (g.predecessorTable.get? b).getD [] = g.predecessors b := by
  obtain ⟨block, hb⟩ := Table.contains_iff.mp h
  rw [predecessorTable, Table.get?_mapWithKey, hb]
  rfl

theorem contains_of_mem_reversePostorder (h : b ∈ g.reversePostorder) : g.blocks.contains b := by
  obtain ⟨l, w⟩ := mem_reversePostorder_iff.mp h
  exact w.contains

theorem ordered_reversePostorder (hk : g.Keyed) (he : g.blocks.contains g.entry) :
    Dominators.Ordered g.reversePostorder g.predecessorTable g.entry := by
  obtain ⟨rest, hr⟩ := reversePostorder_eq_cons he
  refine ⟨g.nodup_reversePostorder, by rw [hr]; rfl, fun b hb => ?_⟩
  have hbo : b ∈ g.reversePostorder := mem_of_mem_tail hb
  have hne : b ≠ g.entry := by
    rintro rfl
    have hn := g.nodup_reversePostorder
    rw [hr] at hb hn
    exact (nodup_cons.mp hn).1 hb
  obtain ⟨p, hp, hs, hlt⟩ := exists_earlier_edge hbo hne
  refine ⟨p, ?_, hp, hlt⟩
  rw [getD_predecessorTable (contains_of_mem_reversePostorder hbo)]
  exact hk.mem_predecessors.mpr hs

end Graph

namespace Dominators

variable {g : Graph} {a b : BlockId} {l : List BlockId} {t : Table BlockId BlockId}

theorem mem_of_above_of_walk (hk : g.Keyed) (ht : Tree g.reversePostorder g.entry t)
    (hall : ∀ b ∈ g.reversePostorder, t.contains b)
    (hup : ∀ c ∈ g.reversePostorder.tail, ∀ d, t.get? c = some d →
      ∀ q ∈ (g.predecessorTable.get? c).getD [], t.contains q → Above t d q) (w : g.Walk b l)
    (h : Above t a b) : a ∈ l := by
  induction w with
  | start _ => simp [h.eq_entry ht rfl]
  | @step p b l w hs hb ih =>
    by_cases he : b = g.entry
    · simp [h.eq_entry ht he, he]
    · have hpo : p ∈ g.reversePostorder := Graph.mem_reversePostorder_iff.mpr ⟨l, w⟩
      have hbo : b ∈ g.reversePostorder :=
        Graph.mem_reversePostorder_iff.mpr ⟨_, w.step hs hb⟩
      have hbt : b ∈ g.reversePostorder.tail := by
        obtain ⟨rest, hr⟩ := Graph.reversePostorder_eq_cons w.contains_entry
        rw [hr] at hbo ⊢
        exact (mem_cons.mp hbo).resolve_left he
      obtain ⟨d, hd⟩ := Table.contains_iff.mp (hall b hbo)
      rcases h.eq_or hd with rfl | h
      · simp
      · refine mem_cons_of_mem _ (ih (h.trans (hup b hbt d hd p ?_ (hall p hpo))))
        rw [Graph.getD_predecessorTable hb]
        exact hk.mem_predecessors.mpr hs

theorem above_of_isAbove {order : List BlockId} {entry : BlockId} (n : Nat)
    (h : isAbove ⟨t.erase entry, order, entry⟩ a n b = true) : Above t a b := by
  induction n generalizing b with
  | zero => simp [isAbove] at h
  | succ n ih =>
    simp only [isAbove, idom?, Table.get?_erase] at h
    by_cases he : b = entry
    · simp [he] at h
    · simp only [he, ↓reduceIte] at h
      split at h
      · cases h
      · rename_i p hp
        rcases Bool.or_eq_true_iff.mp h with h | h
        · rw [← of_decide_eq_true h]
          exact .up hp (.refl p)
        · exact .up hp (ih h)

theorem mem_walk_of_dominates (hk : g.Keyed) (w : g.Walk b l)
    (h : (ofGraph g).dominates a b = true) : a ∈ l := by
  have ho := Graph.ordered_reversePostorder hk w.contains_entry
  obtain ⟨t, hs, ht, hall, hup⟩ := exists_settled ho
    (n := g.reversePostorder.length * (g.reversePostorder.length + 1) + 1) (by
      rw [Nat.mul_succ]
      omega)
  have hof : ofGraph g = ⟨t.erase g.entry, g.reversePostorder, g.entry⟩ := by
    rw [ofGraph, hs]
  have hreach : (ofGraph g).isReachable b = true := by
    rw [hof, isReachable]
    by_cases he : b = g.entry
    · simp [he]
    · have hb := hall b (Graph.mem_reversePostorder_iff.mpr ⟨l, w⟩)
      simpa [he, Table.contains] using hb
  rw [dominates, hreach] at h
  simp only [Bool.not_true, Bool.or_false, Bool.or_eq_true, decide_eq_true_eq] at h
  rcases h with rfl | h
  · exact w.mem
  · rw [hof] at h
    exact mem_of_above_of_walk hk ht hall hup w (above_of_isAbove _ h)

end Dominators

end SiteFusion
