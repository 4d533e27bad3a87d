import SiteFusion.Proofs.CopiedBlocks
import SiteFusion.Proofs.SiteRecovery

namespace SiteFusion

open List Option

namespace Rounds

/-- New ordinals were given out from `base` on, up to `next`, and none of them twice. -/
structure Issued (base next : UInt64) (t : Table UInt64 UInt64) : Prop where
  bounds : ∀ n v, t.get? n = some v → base ≤ v ∧ v < next
  apart : ∀ n m v, t.get? n = some v → t.get? m = some v → n = m

variable {base next : UInt64} {t : Table UInt64 UInt64}

theorem Issued.insert {n : UInt64} (h : Issued base next t) (hb : base ≤ next)
    (hn : next < 18446744073709551615) : Issued base (next + 1) (t.insert n next) := by
  have hlt : next < next + 1 := by
    rw [UInt64.lt_iff_toNat_lt] at hn ⊢
    rw [UInt64.toNat_add]
    simp only [UInt64.reduceToNat] at hn ⊢
    omega
  refine ⟨fun m v hm => ?_, fun m k v hm hk => ?_⟩
  · rw [Table.get?_insert] at hm
    split at hm
    · cases hm
      exact ⟨hb, hlt⟩
    · obtain ⟨hle, hv⟩ := h.bounds m v hm
      exact ⟨hle, UInt64.lt_trans hv hlt⟩
  · rw [Table.get?_insert] at hm hk
    split at hm
    · next he =>
      cases hm
      split at hk
      · next he' => exact he.trans he'.symm
      · exact absurd (h.bounds k _ hk).2 (UInt64.lt_irrefl _)
    · split at hk
      · cases hk
        exact absurd (h.bounds m _ hm).2 (UInt64.lt_irrefl _)
      · exact h.apart m k v hm hk

theorem renumber_issued {ns : List UInt64} {t' : Table UInt64 UInt64} (h : Issued base next t)
    (hb : base ≤ next) (ht : renumber ns next t = .ok t') :
    (∃ next', Issued base next' t') ∧
      ∀ n, (n ∈ ns ∨ t.contains n = true) → t'.contains n = true := by
  induction ns generalizing next t with
  | nil =>
    cases ht
    exact ⟨⟨next, h⟩, fun n hn => hn.resolve_left (by simp)⟩
  | cons n ns ih =>
    unfold renumber at ht
    split at ht
    · next hc =>
      obtain ⟨hissued, hmem⟩ := ih h hb ht
      refine ⟨hissued, fun k hk => hmem k ?_⟩
      rcases hk with hk | hk
      · rcases mem_cons.mp hk with rfl | hk
        · exact .inr hc
        · exact .inl hk
      · exact .inr hk
    · split at ht
      · next hlt =>
        have h' := h.insert (n := n) hb hlt
        have hle : base ≤ next + 1 := UInt64.le_trans hb (UInt64.le_of_lt
          (h'.bounds n next (by rw [Table.get?_insert, if_pos rfl])).2)
        obtain ⟨hissued, hmem⟩ := ih h' hle ht
        refine ⟨hissued, fun k hk => hmem k ?_⟩
        rw [Table.contains_insert]
        rcases hk with hk | hk
        · rcases mem_cons.mp hk with rfl | hk
          · simp
          · exact .inl hk
        · simp [hk]
      · cases ht

end Rounds

namespace Block

variable {copied : List OpId} {t : Table UInt64 UInt64} {op : OpId}

def restamp (t : Table UInt64 UInt64) (copied : List OpId) (op : OpId) (tags : Tags) : Tags :=
  if copied.contains op then Rounds.restampTags t tags else tags

end Block

namespace Rounds

variable {g g' : Function} {copied : List OpId} {b : Block} {n : UInt64}

theorem restamp_eq (hg : restamp g copied = .ok g') :
    ∃ (next next' : UInt64) (t : Table UInt64 UInt64), Issued next next' t ∧
      (∀ n ∈ ownOrdinals g copied, n < next) ∧
      (∀ n ∈ copiedOrdinals g copied, ∃ v, t.get? n = some v) ∧
      g' = g.mapBlocks fun _ b => b.mapTags (Block.restamp t copied) := by
  obtain ⟨next, hnext, hg⟩ := bind_eq_ok.mp hg
  obtain ⟨t, ht, hg⟩ := bind_eq_ok.mp hg
  cases hg
  have hempty : Issued next next .empty := ⟨fun n v hn => (by cases hn), fun n m v hn => (by cases hn)⟩
  obtain ⟨⟨next', hissued⟩, hmem⟩ := renumber_issued hempty (UInt64.le_refl _) ht
  exact ⟨next, next', t, hissued, fun n hn => Counter.lt_of_nextOrdinal hnext hn,
    fun n hn => Table.contains_iff.mp (hmem n (.inl hn)), rfl⟩

end Rounds

theorem Inline.face_adoptCollector (f callee : Function) :
    (adoptCollector f callee).face = f.face := by
  unfold adoptCollector
  split
  · rfl
  · rfl

end SiteFusion
