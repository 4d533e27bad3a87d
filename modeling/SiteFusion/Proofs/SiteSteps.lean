import SiteFusion.Proofs.Frames
import SiteFusion.Proofs.SiteRoles

namespace SiteFusion

open List

namespace Site

variable {f g : Function} {callee : FuncId} {slot : Reg} {slots : Option (Reg × Reg)} {ty : Ty}

theorem storeResult_ticks {tags : Tags} {l : List (Operation Instruction)}
    (hg : storeResult f tags slots = .ok (g, l)) :
    f.Ticks g ∧ (slots = none ∧ l = [] ∨ ∃ reg slot o, slots = some (reg, slot) ∧ l = [o] ∧
      o.kind = .store (.reg slot) (.reg reg) ∧ o.tags = tags) := by
  unfold storeResult at hg
  split at hg
  · cases hg
    exact ⟨.refl _, .inl ⟨rfl, rfl⟩⟩
  · next reg slot =>
    obtain ⟨⟨f₁, store⟩, h₁, hg⟩ := bind_eq_ok.mp hg
    cases hg
    obtain ⟨htick, hkind, htags⟩ := Function.ticks_op h₁
    exact ⟨htick, .inr ⟨reg, slot, store, rfl, rfl, hkind, htags⟩⟩

end Site

variable {n : UInt64}

namespace Site

variable {trap : BlockId}

theorem mem_successors_numbered {tails : List BlockId} {s : BlockId} {v : Operand}
    (hs : s ∈ (Terminator.switch v (numbered tails) trap).successors) : s ∈ tails ∨ s = trap := by
  rw [Terminator.successors, mem_append, mem_singleton] at hs
  refine hs.imp_left fun hs => ?_
  obtain ⟨x, hx, rfl⟩ := List.mem_map.mp hs
  obtain ⟨i, hi, rfl⟩ := mem_mapIdx.mp hx
  exact getElem_mem hi

end Site

theorem Counter.le_foldl_max (l : List UInt64) (a : UInt64) :
    a ≤ l.foldl max a ∧ ∀ m ∈ l, m ≤ l.foldl max a := by
  induction l generalizing a with
  | nil => exact ⟨UInt64.le_refl _, fun _ h => nomatch h⟩
  | cons b l ih =>
    obtain ⟨h, hl⟩ := ih (max a b)
    have hmax : a ≤ max a b ∧ b ≤ max a b := by
      simp only [max]
      split
      · next h => exact ⟨h, UInt64.le_refl _⟩
      · next h => exact ⟨UInt64.le_refl _, UInt64.le_of_lt (UInt64.not_le.mp h)⟩
    refine ⟨UInt64.le_trans hmax.1 h, fun m hm => ?_⟩
    rcases mem_cons.mp hm with rfl | hm
    · exact UInt64.le_trans hmax.2 h
    · exact hl m hm

theorem Counter.lt_of_nextOrdinal {ns : List UInt64} {m : UInt64} (h : nextOrdinal ns = .ok n)
    (hm : m ∈ ns) : m < n := by
  unfold nextOrdinal at h
  split at h
  · next hmax =>
    rw [max?_eq_none_iff.mp hmax] at hm
    cases hm
  · next k hmax =>
    split at h
    · next hk =>
      cases h
      have hle : m ≤ k := by
        cases ns with
        | nil => cases hm
        | cons a ns =>
          cases hmax
          obtain ⟨ha, hns⟩ := le_foldl_max ns a
          rcases mem_cons.mp hm with rfl | hm
          · exact ha
          · exact hns m hm
      rw [UInt64.lt_iff_toNat_lt] at hk ⊢
      rw [UInt64.le_iff_toNat_le] at hle
      rw [UInt64.toNat_add]
      simp at hk ⊢
      omega
    · cases h

namespace Site

variable {f g : Function} {callee caller : FuncId} {joined : Bool} {m m' : Module} {s : Site}
  {site : Option Site}

/-- Building a site changes nothing, or it fuses calls in the caller. -/
theorem build_cases {calls : List OpId} (hm : build m caller callee calls = .ok (m', site)) :
    m' = m ∧ site = none ∨ ∃ f target fused g, m.function? caller = some f ∧
      m.function? callee = some target ∧
      collectCalls f callee target.signature.params.length calls = some fused ∧
      fuseCalls f caller callee target fused = .ok (g, site) ∧ m' = m.setFunction caller g := by
  unfold build at hm
  split at hm
  · next target f ht hf =>
    split at hm
    · cases hm
      exact .inl ⟨rfl, rfl⟩
    · split at hm
      · cases hm
        exact .inl ⟨rfl, rfl⟩
      · next fused hc =>
        obtain ⟨⟨g, site'⟩, h₁, hm⟩ := bind_eq_ok.mp hm
        cases hm
        exact .inr ⟨f, target, fused, g, hf, ht, hc, h₁, rfl⟩
  · cases hm
    exact .inl ⟨rfl, rfl⟩

theorem storeArguments_ticks {l : List (Reg × Operand)} {index : Nat}
    {stores : List (Operation Instruction)} (hg : s.storeArguments l index f = .ok (g, stores)) :
    f.Ticks g ∧ ∀ o ∈ stores, ∃ x ∈ l, ∃ i < index + l.length, o.kind = .store (.reg x.1) x.2 ∧
      o.tags = (Role.argument i).tags s.callee s.ordinal := by
  induction l generalizing f index stores with
  | nil =>
    cases hg
    exact ⟨.refl _, fun _ h => nomatch h⟩
  | cons x l ih =>
    obtain ⟨slot, v⟩ := x
    obtain ⟨⟨f₁, store⟩, h₁, hg⟩ := bind_eq_ok.mp hg
    obtain ⟨⟨f₂, rest⟩, h₂, hg⟩ := bind_eq_ok.mp hg
    cases hg
    obtain ⟨htick, hkind, htags⟩ := Function.ticks_op h₁
    obtain ⟨htick', hrest⟩ := ih h₂
    refine ⟨htick.trans htick', fun o ho => ?_⟩
    rcases mem_cons.mp ho with rfl | ho
    · exact ⟨(slot, v), mem_cons_self, index, by simp, hkind, htags⟩
    · obtain ⟨x, hx, i, hi, hk, ht⟩ := hrest o ho
      refine ⟨x, mem_cons_of_mem _ hx, i, ?_, hk, ht⟩
      rw [length_cons]
      omega

theorem extend_cases {op : OpId} (hm : s.extend m op = .ok (m', joined)) :
    m' = m ∧ joined = false ∨ ∃ caseSlot f o dest callee args result g,
      s.caseSlot = some caseSlot ∧ m.function? s.caller = some f ∧
      f.graph.instruction? op = some o ∧ o.kind = .call dest callee args ∧
      s.join f result op caseSlot dest args = .ok (g, joined) ∧
      m' = m.setFunction s.caller g := by
  unfold extend at hm
  split at hm
  · next caseSlot f hslot hf =>
    split at hm
    · cases hm
      exact .inl ⟨rfl, rfl⟩
    · split at hm
      · next dest callee args hk =>
        obtain ⟨o, ho, hkind⟩ := Option.map_eq_some_iff.mp hk
        split at hm
        · cases hm
          exact .inl ⟨rfl, rfl⟩
        · next c hc =>
          split at hm
          · obtain ⟨⟨g, joined'⟩, h₁, hm⟩ := bind_eq_ok.mp hm
            cases hm
            exact .inr ⟨caseSlot, f, o, dest, callee, args, _, g, hslot, hf, ho, hkind, h₁, rfl⟩
          · cases hm
            exact .inl ⟨rfl, rfl⟩
      · cases hm
        exact .inl ⟨rfl, rfl⟩
  · cases hm
    exact .inl ⟨rfl, rfl⟩

end Site

namespace Site

variable {base : Int64}

theorem raiseCases_targets {l l' : List (Int64 × BlockId)} (h : raiseCases base l = .ok l') :
    l'.map Prod.snd = l.map Prod.snd := by
  induction l generalizing l' with
  | nil =>
    cases h
    rfl
  | cons x l ih =>
    obtain ⟨id, -, h⟩ := bind_eq_ok.mp h
    obtain ⟨rest, h₂, h⟩ := bind_eq_ok.mp h
    cases h
    rw [map_cons, map_cons, ih h₂]

end Site

end SiteFusion
