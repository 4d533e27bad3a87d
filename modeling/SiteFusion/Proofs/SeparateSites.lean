import Mathlib.Data.Finset.Card
import SiteFusion.Proofs.RenumberedSites

namespace SiteFusion

open List

namespace Tags

theorem find?_attachTo (name : String) (v : TagValue) (l : List Tag) :
    (attachTo name v l).find? (fun t => t.name = name) = some ⟨name, v⟩ := by
  induction l with
  | nil => simp [attachTo]
  | cons t l ih =>
    by_cases h : t.name = name
    · simp [attachTo, h]
    · simp [attachTo, h, ih]

theorem attachTo_attachTo (name : String) (v w : TagValue) (l : List Tag) :
    attachTo name w (attachTo name v l) = attachTo name w l := by
  induction l with
  | nil => simp [attachTo]
  | cons t l ih =>
    by_cases h : t.name = name
    · simp [attachTo, h]
    · simp [attachTo, h, ih]

theorem getWord?_attach (t : Tags) (name : String) (n : UInt64) :
    (t.attach name (.word n)).getWord? name = some n := by
  rw [getWord?, get?, attach, find?_attachTo]
  rfl

/-- The notes with the ordinal at zero, if there is one. -/
def unstamped (t : Tags) : Tags :=
  match t.getWord? SiteNote.site with
  | none => t
  | some _ => t.attach SiteNote.site (.word 0)

theorem unstamped_restampTags (u : Table UInt64 UInt64) (t : Tags) :
    (Rounds.restampTags u t).unstamped = t.unstamped := by
  unfold Rounds.restampTags
  cases h : t.getWord? SiteNote.site with
  | none => rfl
  | some n =>
    simp only [unstamped, h, getWord?_attach]
    rw [attach, attach, attachTo_attachTo]
    rfl

end Tags

def Listed.ordinal? (l : Listed) : Option UInt64 := l.tags.getWord? SiteNote.site

namespace Function

def operations (f : Function) : List Listed := f.graph.blockList.flatMap Block.listed

def unstamped (f : Function) : Function :=
  { f with graph := f.graph.mapBlocks fun b => b.mapTags fun _ t => t.unstamped }

end Function

/-- The ordinals of some operations of `f` were exchanged, and `g` came of it. Operations are compared
with those in their places. -/
structure Separated (copied : List OpId) (f g : Function) : Prop where
  rest : g.unstamped = f.unstamped
  length : g.operations.length = f.operations.length
  own : ∀ x ∈ f.operations.zip g.operations, x.1.op ∉ copied → x.2 = x.1
  isSome : ∀ x ∈ f.operations.zip g.operations, x.1.op ∈ copied →
    (x.2.ordinal?.isSome ↔ x.1.ordinal?.isSome)
  same : ∀ x ∈ f.operations.zip g.operations, ∀ y ∈ f.operations.zip g.operations,
    x.1.op ∈ copied → y.1.op ∈ copied →
      (x.2.ordinal? = y.2.ordinal? ↔ x.1.ordinal? = y.1.ordinal?)
  apart : ∀ a ∈ g.operations, ∀ b ∈ g.operations, a.op ∈ copied → b.op ∉ copied →
    ∀ n, a.ordinal? = some n → b.ordinal? ≠ some n

namespace Rounds

/-- The number after the largest, which may be one too many for an ordinal. -/
def firstFree (ns : List UInt64) : Nat := (ns.max?.map fun n => n.toNat + 1).getD 0

theorem nextOrdinal_eq (ns : List UInt64) :
    if firstFree ns < 18446744073709551616 then ∃ n, Counter.nextOrdinal ns = .ok n ∧ n.toNat = firstFree ns
    else Counter.nextOrdinal ns = .error (.exhausted .ordinal) := by
  unfold Counter.nextOrdinal firstFree
  cases ns.max? with
  | none => simp
  | some n =>
    have hn := n.toNat_lt
    by_cases h : n < 18446744073709551615
    · have hlt := UInt64.lt_iff_toNat_lt.mp h
      simp only [UInt64.reduceToNat] at hlt
      simp only [h, ↓reduceIte, Option.map_some, Option.getD_some]
      rw [if_pos (by omega)]
      refine ⟨_, rfl, ?_⟩
      rw [UInt64.toNat_add]
      simp
      omega
    · have hle := UInt64.le_iff_toNat_le.mp (UInt64.not_lt.mp h)
      simp only [UInt64.reduceToNat] at hle
      simp only [h, ↓reduceIte, Option.map_some, Option.getD_some]
      rw [if_neg (by omega)]
      trivial

def pending (ns : List UInt64) (t : Table UInt64 UInt64) : Finset UInt64 :=
  ns.toFinset.filter fun n => t.contains n = false

theorem pending_cons_of_contains {n : UInt64} {ns : List UInt64} {t : Table UInt64 UInt64}
    (h : t.contains n = true) : pending (n :: ns) t = pending ns t := by
  rw [pending, toFinset_cons, Finset.filter_insert, if_neg (by simp [h])]
  rfl

theorem card_pending_cons {n v : UInt64} {ns : List UInt64} {t : Table UInt64 UInt64}
    (h : t.contains n = false) :
    (pending (n :: ns) t).card = (pending ns (t.insert n v)).card + 1 := by
  have hnew : n ∉ pending ns (t.insert n v) := by
    simp [pending, Table.contains]
  rw [← Finset.card_insert_of_notMem hnew]
  congr 1
  ext k
  by_cases hk : k = n
  · simp [pending, hk, h]
  · simp [pending, hk, Table.contains]

theorem renumber_eq (ns : List UInt64) (next : UInt64) (t : Table UInt64 UInt64) :
    if next.toNat + (pending ns t).card < 18446744073709551616 then ∃ t', renumber ns next t = .ok t'
    else renumber ns next t = .error (.exhausted .ordinal) := by
  induction ns generalizing next t with
  | nil =>
    have hn := next.toNat_lt
    simp [pending, renumber, hn]
  | cons n ns ih =>
    unfold renumber
    by_cases hc : t.contains n = true
    · rw [pending_cons_of_contains hc]
      simpa only [hc, ↓reduceIte] using ih next t
    · rw [Bool.not_eq_true] at hc
      rw [card_pending_cons (v := next) hc]
      by_cases hlt : next < 18446744073709551615
      · have hlt' := UInt64.lt_iff_toNat_lt.mp hlt
        simp only [UInt64.reduceToNat] at hlt'
        have hnext : (next + 1).toNat = next.toNat + 1 := by
          rw [UInt64.toNat_add]
          simp
          omega
        have h := ih (next + 1) (t.insert n next)
        rw [hnext, Nat.add_right_comm] at h
        simpa only [hc, Bool.false_eq_true, hlt, ↓reduceIte, Nat.add_assoc] using h
      · have hle := UInt64.le_iff_toNat_le.mp (UInt64.not_lt.mp hlt)
        simp only [UInt64.reduceToNat] at hle
        rw [if_neg (by omega)]
        simp [hc, hlt]

variable {f g : Function} {copied : List OpId} {t : Table UInt64 UInt64}

def restampListed (t : Table UInt64 UInt64) (copied : List OpId) (l : Listed) : Listed :=
  { l with tags := Block.restamp t copied l.op l.tags }

theorem listed_mapTags (b : Block) (c : OpId → Tags → Tags) :
    (b.mapTags c).listed = b.listed.map fun l => { l with tags := c l.op l.tags } := by
  have hidx : ∀ {κ : Type} (p : Nat → Position) (l : List (Operation κ)),
      (l.map fun o => { o with tags := c o.id o.tags }).mapIdx
        (fun i o => Listed.mk (p i) o.id o.tags) =
        (l.mapIdx fun i o => Listed.mk (p i) o.id o.tags).map
          fun l => { l with tags := c l.op l.tags } := by
    intro κ p l
    refine ext_getElem? fun i => ?_
    simp [Function.comp_def]
  simp only [Block.listed, Block.mapTags, map_append, hidx]
  rfl

theorem operations_mapTags (f : Function) (c : OpId → Tags → Tags) :
    (f.mapBlocks fun _ b => b.mapTags c).operations =
      f.operations.map fun l => { l with tags := c l.op l.tags } := by
  have hblocks : (f.mapBlocks fun _ b => b.mapTags c).graph.blockList =
      f.graph.blockList.map fun b => b.mapTags c := by
    simp [Function.mapBlocks, Graph.blockList, Table.values, Table.mapWithKey, Function.comp_def]
  rw [Function.operations, Function.operations, hblocks, flatMap_map, map_flatMap]
  exact flatMap_congr fun b _ => listed_mapTags b c

theorem unstamped_restamp :
    (f.mapBlocks fun _ b => b.mapTags (Block.restamp t copied)).unstamped = f.unstamped := by
  have htags : ∀ op tags, (Block.restamp t copied op tags).unstamped = tags.unstamped := by
    intro op tags
    unfold Block.restamp
    split
    · exact Tags.unstamped_restampTags t tags
    · rfl
  simp [Function.unstamped, Function.mapBlocks, Graph.mapBlocks, Table.map, Table.mapWithKey,
    Block.mapTags, htags, Function.comp_def]

theorem ordinal?_restampListed {l : Listed} (h : l.op ∈ copied) :
    (restampListed t copied l).ordinal? = l.ordinal?.map fun n => (t.get? n).getD n := by
  simp only [restampListed, Listed.ordinal?, Block.restamp, contains_iff_mem.mpr h, ↓reduceIte]
  unfold restampTags
  cases hn : l.tags.getWord? SiteNote.site with
  | none => simp [hn]
  | some n => simp [Tags.getWord?_attach]

theorem restampListed_of_not_mem {l : Listed} (h : l.op ∉ copied) :
    restampListed t copied l = l := by
  simp [restampListed, Block.restamp, h]

theorem mem_ordinals (copied : List OpId) {l : Listed} {n : UInt64} (hl : l ∈ f.operations)
    (hn : l.ordinal? = some n) :
    if l.op ∈ copied then n ∈ copiedOrdinals f copied else n ∈ ownOrdinals f copied := by
  split
  · next hc => exact mem_filterMap.mpr ⟨l, hl, by rw [if_pos (contains_iff_mem.mpr hc)]; exact hn⟩
  · next hc =>
    exact mem_filterMap.mpr ⟨l, hl, by rw [if_neg (mt contains_iff_mem.mp hc)]; exact hn⟩

theorem restamp_separated (h : restamp f copied = .ok g) : Separated copied f g := by
  obtain ⟨next, next', t, hissued, hown, hcopied, rfl⟩ := restamp_eq h
  have hops := operations_mapTags f (Block.restamp t copied)
  change _ = f.operations.map (restampListed t copied) at hops
  have hzip : ∀ x ∈ f.operations.zip (f.operations.map (restampListed t copied)),
      x.1 ∈ f.operations ∧ x.2 = restampListed t copied x.1 := by
    intro x hx
    rw [← List.map_id f.operations, List.map_map, zip_map'] at hx
    obtain ⟨l, hl, rfl⟩ := List.mem_map.mp hx
    exact ⟨hl, rfl⟩
  -- The new ordinal of a copied operation was issued for its old one.
  have hnew : ∀ l ∈ f.operations, l.op ∈ copied → ∀ n, l.ordinal? = some n →
      ∃ v, t.get? n = some v ∧ (restampListed t copied l).ordinal? = some v := by
    intro l hl hc n hn
    have hmem := mem_ordinals copied hl hn
    rw [if_pos hc] at hmem
    obtain ⟨v, hv⟩ := hcopied n hmem
    refine ⟨v, hv, ?_⟩
    rw [ordinal?_restampListed hc, hn, Option.map_some, hv, Option.getD_some]
  refine ⟨unstamped_restamp, ?_, ?_, ?_, ?_, ?_⟩
  · rw [hops, length_map]
  · intro x hx hc
    rw [hops] at hx
    rw [(hzip x hx).2, restampListed_of_not_mem hc]
  · intro x hx hc
    rw [hops] at hx
    rw [(hzip x hx).2, ordinal?_restampListed hc, Option.isSome_map]
  · intro x hx y hy hcx hcy
    rw [hops] at hx hy
    obtain ⟨hx, hx'⟩ := hzip x hx
    obtain ⟨hy, hy'⟩ := hzip y hy
    rw [hx', hy']
    constructor
    · intro he
      cases hnx : x.1.ordinal? with
      | none =>
        rw [ordinal?_restampListed hcx, ordinal?_restampListed hcy, hnx, Option.map_none] at he
        exact (Option.map_eq_none_iff.mp he.symm).symm
      | some n =>
        obtain ⟨v, hv, hxv⟩ := hnew x.1 hx hcx n hnx
        cases hny : y.1.ordinal? with
        | none =>
          rw [hxv, ordinal?_restampListed hcy, hny] at he
          cases he
        | some n' =>
          obtain ⟨v', hv', hyv⟩ := hnew y.1 hy hcy n' hny
          rw [hxv, hyv] at he
          cases he
          rw [hissued.apart n n' v hv hv']
    · intro he
      rw [ordinal?_restampListed hcx, ordinal?_restampListed hcy, he]
  · intro a ha b hb hca hcb n hna hnb
    rw [hops] at ha hb
    obtain ⟨l, hl, rfl⟩ := List.mem_map.mp ha
    obtain ⟨l', hl', rfl⟩ := List.mem_map.mp hb
    replace hca : l.op ∈ copied := hca
    replace hcb : l'.op ∉ copied := hcb
    rw [restampListed_of_not_mem hcb] at hnb
    have hmem := mem_ordinals copied hl' hnb
    rw [if_neg hcb] at hmem
    have hold : ∃ k, l.ordinal? = some k := by
      rw [ordinal?_restampListed hca] at hna
      obtain ⟨k, hk, -⟩ := Option.map_eq_some_iff.mp hna
      exact ⟨k, hk⟩
    obtain ⟨k, hk⟩ := hold
    obtain ⟨v, hv, hlv⟩ := hnew l hl hca k hk
    obtain rfl : v = n := Option.some.inj (hlv.symm.trans hna)
    exact UInt64.lt_irrefl _ (UInt64.lt_of_lt_of_le (hown v hmem) (hissued.bounds k v hv).1)

/-- Sites that were copied get ordinals of their own, if there are enough of them: operations that
were copied have the same ordinal exactly if they had the same one, none of them has one of another
operation, and nothing else changes. -/
theorem restamp_exact (f : Function) (copied : List OpId) :
    if firstFree (ownOrdinals f copied) + (copiedOrdinals f copied).toFinset.card < 18446744073709551616 then
      ∃ g, restamp f copied = .ok g ∧ Separated copied f g
    else restamp f copied = .error (.exhausted .ordinal) := by
  have hnext := nextOrdinal_eq (ownOrdinals f copied)
  unfold restamp
  by_cases hfree : firstFree (ownOrdinals f copied) < 18446744073709551616
  · rw [if_pos hfree] at hnext
    obtain ⟨next, hok, hval⟩ := hnext
    have hall : pending (copiedOrdinals f copied) .empty = (copiedOrdinals f copied).toFinset :=
      Finset.filter_true_of_mem fun _ _ => rfl
    have hnew := renumber_eq (copiedOrdinals f copied) next .empty
    rw [hval, hall] at hnew
    split at hnew
    · next hroom =>
      obtain ⟨t, ht⟩ := hnew
      rw [if_pos hroom]
      obtain ⟨g, hg⟩ : ∃ g, restamp f copied = .ok g :=
        ⟨_, bind_eq_ok.mpr ⟨next, hok, bind_eq_ok.mpr ⟨t, ht, rfl⟩⟩⟩
      exact ⟨g, hg, restamp_separated hg⟩
    · next hroom =>
      rw [if_neg hroom, hok]
      simp only [bind, Except.bind, hnew]
  · rw [if_neg hfree] at hnext
    rw [if_neg (by omega), hnext]
    rfl

end Rounds

end SiteFusion
