import Mathlib.Data.List.Pairwise
import SiteFusion.Pipeline.Steps
import SiteFusion.Proofs.Numbering

namespace SiteFusion

open List Option

@[simp]
theorem Instruction.dest?_mapOperands (i : Instruction) (h : Operand → Operand) :
    (i.mapOperands h).dest? = i.dest? := by
  cases i <;> rfl

@[simp]
theorem Instruction.dest?_replaceUse (i : Instruction) (old : Reg) (new : Operand) :
    (i.replaceUse old new).dest? = i.dest? := i.dest?_mapOperands _

namespace Function

variable {f : Function} {head : Outline} {ops : List OpId} {regs : List Reg} {k : BlockId}
  {o : Operation Instruction}

/-- An instruction that was out of place is put somewhere into a block. -/
theorem Spare.place {c : Block → Block}
    (h : f.Spare head (o.id :: ops) (o.kind.dest?.toList ++ regs))
    (hc : ∀ b, c b = b ∨ ∃ i, c b = b.insertAt i o) : (f.modifyBlock k c).Spare head ops regs := by
  refine h.modifyBlock (fun b => ?_) (fun _ => ⟨fun a => ?_, fun r => ?_⟩) fun b _ => ?_
  · rcases hc b with hb | ⟨i, hb⟩
    · rw [hb]
    · rw [hb]
      rfl
  · rw [count_cons]
    omega
  · rw [count_append]
    omega
  · rcases hc b with hb | ⟨i, hb⟩
    · rw [hb]
      refine ⟨fun a => ?_, fun r => ?_⟩
      · rw [count_cons]
        omega
      · rw [count_append]
        omega
    · rw [hb]
      refine ⟨fun a => ?_, fun r => ?_⟩
      · have ht := count_map_take_drop b.instructions Operation.id i a
        simp only [Block.count_opIds, Block.insertAt, map_append, map_cons,
          count_append, count_cons]
        omega
      · have ht := count_filterMap_take_drop b.instructions (fun o => o.kind.dest?) i r
        simp only [Block.count_defs, Block.insertAt, filterMap_append, filterMap_cons,
          count_append] at ht ⊢
        cases hd : o.kind.dest? with
        | none =>
          simp only [toList_none, count_nil]
          omega
        | some d =>
          simp only [toList_some, count_cons, count_nil]
          omega

theorem push_eq_insertAt (b : Block) (o : Operation Instruction) :
    b.push o = b.insertAt b.instructions.length o := by
  simp [Block.push, Block.insertAt]

theorem Spare.push (h : f.Spare head (o.id :: ops) (o.kind.dest?.toList ++ regs)) :
    (f.modifyBlock k fun b => b.push o).Spare head ops regs :=
  h.place fun b => .inr ⟨_, push_eq_insertAt b o⟩

theorem Spare.insertAt {i : Block → Nat}
    (h : f.Spare head (o.id :: ops) (o.kind.dest?.toList ++ regs)) :
    (f.modifyBlock k fun b => b.insertAt (i b) o).Spare head ops regs :=
  h.place fun b => .inr ⟨i b, rfl⟩

end Function

namespace Spill

variable {f g : Function} {head : Outline} {ops : List OpId} {regs : List Reg} {d : Definition}
  {key : BlockId} {l : List (Operation Instruction)} {n : SpillCount} {slot : Reg} {tags : Tags}
  {ty : Ty}

theorem createSlot_spare (h : f.Spare head ops regs) (hf : createSlot f ty tags = .ok (g, slot)) :
    g.Spare head ops regs := by
  obtain ⟨⟨f₁, r⟩, h₁, hf⟩ := bind_eq_ok.mp hf
  obtain ⟨⟨f₂, alloca⟩, h₂, hf⟩ := bind_eq_ok.mp hf
  cases hf
  obtain ⟨hs, hk⟩ := (h.freshTyped h₁).op h₂
  refine Function.Spare.insertAt ?_
  rw [hk]
  exact hs

theorem newLoad_spare (h : f.Spare head ops regs) {dest : Reg} {load : Operation Instruction}
    (hf : newLoad f slot ty tags = .ok (g, dest, load)) :
    g.Spare head (load.id :: ops) (load.kind.dest?.toList ++ regs) ∧
      g.graph.block? = f.graph.block? := by
  obtain ⟨⟨f₁, r⟩, h₁, hf⟩ := bind_eq_ok.mp hf
  obtain ⟨⟨f₂, load₁⟩, h₂, hf⟩ := bind_eq_ok.mp hf
  cases hf
  obtain ⟨hs, hk⟩ := (h.freshTyped h₁).op h₂
  refine ⟨?_, ?_⟩
  · rw [hk]
    exact hs
  · obtain ⟨-, n, -, rfl⟩ := Function.freshTyped_eq_ok h₁
    obtain ⟨-, m, -, rfl⟩ := Function.op_eq_ok h₂
    rfl

theorem map_modify_eq {κ β : Type} {l : List κ} {i : Nat} {h : κ → κ} {c : κ → β}
    (hc : ∀ a, c (h a) = c a) : (l.modify i h).map c = l.map c := by
  refine ext_getElem? fun j => ?_
  rw [getElem?_map, getElem?_map, getElem?_modify]
  cases l[j]? with
  | none => rfl
  | some a => by_cases hj : i = j <;> simp [hj, hc]

theorem opIds_replaceIncoming (b : Block) (i : Nat) (pred : BlockId) (old new : Reg) :
    (replaceIncoming b i pred old new).opIds = b.opIds := by
  simp only [Block.opIds_eq, replaceIncoming]
  congr 2
  exact map_modify_eq fun _ => rfl

theorem defs_replaceIncoming (b : Block) (i : Nat) (pred : BlockId) (old new : Reg) :
    (replaceIncoming b i pred old new).defs = b.defs := by
  simp only [Block.defs, replaceIncoming]
  congr 1
  exact map_modify_eq fun _ => rfl

theorem reloadPhis_spare {b : BlockId} {l : List (Nat × BlockId)} (h : f.Spare head ops regs)
    (hf : reloadPhis d slot b l f = .ok g) : g.Spare head ops regs := by
  induction l generalizing f with
  | nil =>
    cases hf
    exact h
  | cons e l ih =>
    obtain ⟨index, pred⟩ := e
    unfold reloadPhis at hf
    split at hf
    · obtain ⟨⟨f₁, value, load⟩, h₁, hf⟩ := bind_eq_ok.mp hf
      refine ih ?_ hf
      exact (newLoad_spare h h₁).1.push.unchanged (fun _ => rfl)
        (fun b => opIds_replaceIncoming b ..) (fun b => defs_replaceIncoming b ..)
    · exact ih h hf

/-- The loads that go before instructions are out of place until the block takes the new list. -/
theorem reloadInstructions_spare {l' : List (Operation Instruction)} (h : f.Spare head ops regs)
    (hf : reloadInstructions d slot l f = .ok (g, l')) :
    ∃ newOps newRegs, g.Spare head (newOps ++ ops) (newRegs ++ regs) ∧
      g.graph.block? = f.graph.block? ∧
      (∀ o, (l'.map Operation.id).count o = (l.map Operation.id).count o + newOps.count o) ∧
      ∀ r, (l'.filterMap fun o => o.kind.dest?).count r =
        (l.filterMap fun o => o.kind.dest?).count r + newRegs.count r := by
  induction l generalizing f ops regs l' with
  | nil =>
    cases hf
    exact ⟨[], [], h, rfl, by simp, by simp⟩
  | cons o l ih =>
    unfold reloadInstructions at hf
    split at hf
    · obtain ⟨⟨f₁, value, load⟩, h₁, hf⟩ := bind_eq_ok.mp hf
      obtain ⟨⟨f₂, rest⟩, h₂, hf⟩ := bind_eq_ok.mp hf
      cases hf
      obtain ⟨hs, hb⟩ := newLoad_spare h h₁
      obtain ⟨newOps, newRegs, hs', hb', ho, hr⟩ := ih hs h₂
      refine ⟨load.id :: newOps, load.kind.dest?.toList ++ newRegs, ?_, hb'.trans hb,
        fun a => ?_, fun r => ?_⟩
      · refine hs'.forget (fun a => ?_) fun r => ?_
        · simp only [cons_append, count_cons, count_append]
          omega
        · simp only [count_append]
          omega
      · have ha := ho a
        simp only [map_cons, count_cons, Operation.map] at ha ⊢
        omega
      · have hc := hr r
        simp only [filterMap_cons, Operation.map, Instruction.dest?_replaceUse,
          count_append] at hc ⊢
        cases load.kind.dest? <;> cases o.kind.dest? <;>
          simp only [count_cons, toList_none, toList_some, count_nil] <;>
          omega
    · obtain ⟨⟨f₂, rest⟩, h₂, hf⟩ := bind_eq_ok.mp hf
      cases hf
      obtain ⟨newOps, newRegs, hs', hb', ho, hr⟩ := ih h h₂
      refine ⟨newOps, newRegs, hs', hb', fun a => ?_, fun r => ?_⟩
      · have ha := ho a
        simp only [map_cons, count_cons] at ha ⊢
        omega
      · have hc := hr r
        simp only [filterMap_cons] at hc ⊢
        cases o.kind.dest? <;> simp only [count_cons] <;> omega

theorem reloadTerminator_spare {t t' : Operation Terminator} (h : f.Spare head ops regs)
    (hf : reloadTerminator d slot t f = .ok (g, l, t')) :
    g.Spare head (l.map Operation.id ++ ops) (l.filterMap (fun o => o.kind.dest?) ++ regs) ∧
      g.graph.block? = f.graph.block? ∧ t'.id = t.id := by
  unfold reloadTerminator at hf
  split at hf
  · obtain ⟨⟨f₁, value, load⟩, h₁, hf⟩ := bind_eq_ok.mp hf
    cases hf
    obtain ⟨hs, hb⟩ := newLoad_spare h h₁
    refine ⟨?_, hb, rfl⟩
    refine hs.forget (fun a => ?_) fun r => ?_
    · simp
    · cases hd : load.kind.dest? <;> simp [hd]
  · cases hf
    exact ⟨h, rfl, rfl⟩

theorem reloadBlock_spare (h : f.Spare head ops regs) (hf : reloadBlock d slot key f = .ok g) :
    g.Spare head ops regs := by
  unfold reloadBlock at hf
  split at hf
  · cases hf
    exact h
  · obtain ⟨f₁, h₁, hf⟩ := bind_eq_ok.mp hf
    have hs₁ := reloadPhis_spare h h₁
    split at hf
    · cases hf
      exact hs₁
    · split at hf
      · cases hf
        exact hs₁
      · next b hb =>
        obtain ⟨⟨f₂, insts⟩, h₂, hf⟩ := bind_eq_ok.mp hf
        obtain ⟨⟨f₃, load, term⟩, h₃, hf⟩ := bind_eq_ok.mp hf
        cases hf
        obtain ⟨newOps, newRegs, hs₂, hb₂, ho, hr⟩ := reloadInstructions_spare hs₁ h₂
        obtain ⟨hs₃, hb₃, ht⟩ := reloadTerminator_spare hs₂ h₃
        have hkey : f₃.graph.block? key = some b := by rw [hb₃, hb₂, hb]
        refine hs₃.modifyBlock (fun _ => rfl) (fun hn => ?_) fun b' hb' => ?_
        · rw [hkey] at hn
          cases hn
        · rw [hkey] at hb'
          cases hb'
          refine ⟨fun a => ?_, fun r => ?_⟩
          · have ha := ho a
            simp only [Block.count_opIds, map_append, count_append, ht] at ha ⊢
            omega
          · have hc := hr r
            simp only [Block.count_defs, filterMap_append, count_append] at hc ⊢
            omega

theorem reloadBlocks_spare {keys : List BlockId} (h : f.Spare head ops regs)
    (hf : reloadBlocks d slot keys f = .ok g) : g.Spare head ops regs := by
  induction keys generalizing f with
  | nil =>
    cases hf
    exact h
  | cons k ks ih =>
    obtain ⟨f₁, h₁, hf⟩ := bind_eq_ok.mp hf
    exact ih (reloadBlock_spare h h₁) hf

theorem insertStore_cases (d : Definition) (store : Operation Instruction) (b : Block) :
    insertStore d store b = b ∨ ∃ i, insertStore d store b = b.insertAt i store := by
  unfold insertStore
  split
  · exact .inr ⟨0, rfl⟩
  · split
    · exact .inr ⟨_, rfl⟩
    · exact .inl rfl

theorem demoteValue_spare (h : f.Spare head ops regs) (hf : demoteValue f d = .ok g) :
    g.Spare head ops regs := by
  obtain ⟨⟨f₁, slot⟩, h₁, hf⟩ := bind_eq_ok.mp hf
  obtain ⟨f₂, h₂, hf⟩ := bind_eq_ok.mp hf
  obtain ⟨⟨f₃, store⟩, h₃, hf⟩ := bind_eq_ok.mp hf
  cases hf
  have hs := reloadBlocks_spare (createSlot_spare h h₁) h₂
  obtain ⟨hs, hk⟩ := hs.op h₃
  refine Function.Spare.place ?_ fun b => insertStore_cases d store b
  rw [hk]
  exact hs

theorem demoteValues_spare {ds : List Definition} (h : f.Spare head ops regs)
    (hf : demoteValues ds f = .ok g) : g.Spare head ops regs := by
  induction ds generalizing f with
  | nil =>
    cases hf
    exact h
  | cons d ds ih =>
    obtain ⟨f₁, h₁, hf⟩ := bind_eq_ok.mp hf
    exact ih (demoteValue_spare h h₁) hf

theorem storeIncoming_spare {l : List (BlockId × Operand)} {seen : List BlockId}
    (h : f.Spare head ops regs) (hf : storeIncoming slot tags l seen f = .ok g) :
    g.Spare head ops regs := by
  induction l generalizing f seen with
  | nil =>
    cases hf
    exact h
  | cons e l ih =>
    obtain ⟨pred, v⟩ := e
    unfold storeIncoming at hf
    split at hf
    · exact ih h hf
    · obtain ⟨⟨f₁, store⟩, h₁, hf⟩ := bind_eq_ok.mp hf
      refine ih ?_ hf
      obtain ⟨hs, hk⟩ := h.op h₁
      refine Function.Spare.push ?_
      rw [hk]
      exact hs

/-- The register of a phi is free once the phi is gone, and the load defines it again. -/
theorem demotePhi_spare {index : Nat} {p : Operation Phi} {b : Block} (h : f.Spare head ops regs)
    (hb : f.graph.block? key = some b) (hp : b.phis[index]? = some p)
    (hf : demotePhi f key index p = .ok g) : g.Spare head ops regs := by
  obtain ⟨⟨f₁, slot⟩, h₁, hf⟩ := bind_eq_ok.mp hf
  obtain ⟨f₂, h₂, hf⟩ := bind_eq_ok.mp hf
  obtain ⟨⟨f₃, load⟩, h₃, hf⟩ := bind_eq_ok.mp hf
  cases hf
  have hs₀ : (f.modifyBlock key fun b => { b with phis := b.phis.eraseIdx index }).Spare head ops
      (p.kind.dest :: regs) := by
    refine h.modifyBlock (fun _ => rfl) (fun hn => ?_) fun b' hb' => ?_
    · rw [hb] at hn
      cases hn
    · rw [hb] at hb'
      cases hb'
      obtain ⟨hi, hget⟩ := List.getElem?_eq_some_iff.mp hp
      have hsplit : b.phis = b.phis.take index ++ p :: b.phis.drop (index + 1) := by
        rw [← hget, getElem_cons_drop, take_append_drop]
      refine ⟨fun a => ?_, fun r => ?_⟩
      · simp only [Block.count_opIds, eraseIdx_eq_take_drop_succ, map_append,
          count_append]
        conv => rhs; rw [hsplit]
        simp only [map_append, map_cons, count_append, count_cons]
        omega
      · simp only [Block.count_defs, eraseIdx_eq_take_drop_succ, map_append,
          count_append]
        conv => rhs; rw [hsplit]
        simp only [map_append, map_cons, count_append, count_cons]
        omega
  have hs := storeIncoming_spare (createSlot_spare hs₀ h₁) h₂
  obtain ⟨hs, hk⟩ := hs.op h₃
  refine Function.Spare.insertAt ?_
  rw [hk]
  exact hs

theorem demotePhis_spare {l : List (BlockId × OpId)} {n m : Nat} (h : f.Spare head ops regs)
    (hf : demotePhis l f n = .ok (g, m)) : g.Spare head ops regs := by
  induction l generalizing f n with
  | nil =>
    cases hf
    exact h
  | cons e l ih =>
    obtain ⟨key, op⟩ := e
    unfold demotePhis at hf
    split at hf
    · exact ih h hf
    · next b hb =>
      split at hf
      · exact ih h hf
      · split at hf
        · exact ih h hf
        · next p hp =>
          obtain ⟨f₁, h₁, hf⟩ := bind_eq_ok.mp hf
          exact ih (demotePhi_spare h hb hp h₁) hf

theorem demote_spare (h : f.Spare head ops regs) (hf : demote f = .ok (.ok (g, n))) :
    g.Spare head ops regs := by
  unfold demote at hf
  split at hf
  · cases hf
  · obtain ⟨f₁, h₁, hf⟩ := bind_eq_ok.mp hf
    obtain ⟨⟨f₂, m⟩, h₂, hf⟩ := bind_eq_ok.mp hf
    cases hf
    exact demotePhis_spare (demoteValues_spare h h₁) h₂

theorem demote_numbered (h : f.Numbered) (hf : demote f = .ok (.ok (g, n))) :
    g.Numbered ∧ g.header = f.header :=
  (demote_spare (Function.numbered_iff.mp h) hf).numbered trivial trivial

theorem transform_spare {r : Report} (h : f.Spare head ops regs) (hf : transform f = .ok (g, r)) :
    g.Spare head ops regs := by
  obtain ⟨e, h₁, hf⟩ := bind_eq_ok.mp hf
  split at hf
  · cases hf
    exact h
  · next f₁ n =>
    split at hf
    · cases hf
      exact demote_spare h h₁
    · cases hf
      exact demote_spare h h₁

end Spill

theorem eq_of_nodup_filterMap {α β : Type} {l : List α} {c : α → Option β}
    (h : (l.filterMap c).Nodup) {a a' : α} {b : β} (ha : a ∈ l) (ha' : a' ∈ l) (hc : c a = some b)
    (hc' : c a' = some b) : a = a' := by
  induction l with
  | nil => cases ha
  | cons x l ih =>
    have hmem : ∀ y ∈ l, c y = some b → b ∈ l.filterMap c := fun y hy hb =>
      mem_filterMap.mpr ⟨y, hy, hb⟩
    have htail : (l.filterMap c).Nodup := by
      rw [filterMap_cons] at h
      split at h
      · exact h
      · exact (nodup_cons.mp h).2
    have hhead : c x = some b → b ∉ l.filterMap c := by
      intro hx
      rw [filterMap_cons, hx] at h
      exact (nodup_cons.mp h).1
    rcases mem_cons.mp ha with rfl | hl
    · rcases mem_cons.mp ha' with rfl | hl'
      · rfl
      · exact absurd (hmem a' hl' hc') (hhead hc)
    · rcases mem_cons.mp ha' with rfl | hl'
      · exact absurd (hmem a hl hc) (hhead hc')
      · exact ih htail hl hl'

namespace Function

variable {f : Function} {d : Spill.Definition}

/-- A register is not defined in two blocks. -/
theorem Numbered.def_block_unique (h : f.Numbered) {k k' : BlockId} {b b' : Block} {r : Reg}
    (hb : f.graph.block? k = some b) (hb' : f.graph.block? k' = some b') (hr : r ∈ b.defs)
    (hr' : r ∈ b'.defs) : b = b' := by
  have hnodup := (nodup_append.mp h.defOnce).2.1
  have hdis : f.graph.blockList.Pairwise fun s s' => List.Disjoint s.defs s'.defs :=
    (nodup_flatMap.mp hnodup).2
  have : Std.Symm fun s s' : Block => List.Disjoint s.defs s'.defs :=
    ⟨fun _ _ h _ hr hr' => h hr' hr⟩
  by_contra hne
  have hm := Table.mem_values_iff.mpr ⟨k, hb⟩
  have hm' := Table.mem_values_iff.mpr ⟨k', hb'⟩
  exact hdis.forall hm hm' hne hr hr'

end Function

namespace Spill

variable {f : Function} {d : Definition}

theorem mem_definitions (hd : d ∈ definitions f) :
    ∃ k b, f.graph.block? k = some b ∧ d.reg ∈ b.defs ∧
      ((∃ p ∈ b.phis, d.reg = p.kind.dest ∧ d.tags = p.tags) ∨
        ∃ o ∈ b.instructions, o.kind.isAlloca = false ∧ o.kind.dest? = some d.reg ∧
          d.tags = o.tags) := by
  obtain ⟨k, b, hk, hd⟩ := Table.mem_flatMap_values.mp hd
  refine ⟨k, b, hk, ?_⟩
  rcases mem_append.mp hd with hd | hd
  · obtain ⟨p, hp, rfl⟩ := List.mem_map.mp hd
    exact ⟨mem_append_left _ (List.mem_map_of_mem hp), .inl ⟨p, hp, rfl, rfl⟩⟩
  · obtain ⟨o, ho, hd⟩ := mem_filterMap.mp hd
    split at hd
    · cases hd
    · next hn =>
      obtain ⟨r, hr, rfl⟩ := map_eq_some_iff.mp hd
      exact ⟨mem_append_right _ (mem_filterMap.mpr ⟨o, ho, hr⟩),
        .inr ⟨o, ho, Bool.eq_false_iff.mpr hn, hr, rfl⟩⟩

theorem definitions_of_escaping (hd : d ∈ escaping f) : d ∈ definitions f := by
  obtain ⟨r, -, hr⟩ := mem_filterMap.mp hd
  exact mem_reverse.mp (mem_of_find?_eq_some hr)

end Spill

namespace Function

variable {f : Function} {d : Spill.Definition}

/-- Somewhere in a function a cell is allocated in a register. -/
def Allocates (f : Function) (r : Reg) : Prop :=
  ∃ o ∈ f.instructions, ∃ ty, o.kind = .alloca r ty

/-- The values that may be moved are not allocated. -/
theorem Numbered.not_allocates (h : f.Numbered) (hd : d ∈ Spill.definitions f) :
    ¬ f.Allocates d.reg := by
  rintro ⟨o', ho', ty, hk⟩
  obtain ⟨k', b', hb', ho'⟩ := mem_instructions.mp ho'
  have hdest' : o'.kind.dest? = some d.reg := by
    rw [hk]
    rfl
  have hmem' : d.reg ∈ b'.instructions.filterMap fun o => o.kind.dest? :=
    mem_filterMap.mpr ⟨o', ho', hdest'⟩
  obtain ⟨k, b, hb, hdef, hd⟩ := Spill.mem_definitions hd
  have hsame := h.def_block_unique hb hb' hdef (mem_append_right _ hmem')
  subst hsame
  have hnodup := (nodup_flatMap.mp (nodup_append.mp h.defOnce).2.1).1 b
    (Table.mem_values_iff.mpr ⟨k, hb⟩)
  obtain ⟨-, hinst, hdis⟩ := nodup_append.mp hnodup
  rcases hd with ⟨p, hp, hreg, -⟩ | ⟨o, ho, hal, hdest, -⟩
  · exact hdis _ (List.mem_map_of_mem hp) _ (hreg ▸ hmem') rfl
  · cases eq_of_nodup_filterMap hinst ho ho' hdest hdest'
    rw [hk] at hal
    cases hal

end Function

namespace Function

variable {f : Function} {head : Outline} {ops : List OpId} {regs : List Reg}

theorem Spare.mapAllBlocks (h : f.Spare head ops regs) {c : Block → Block} (hid : ∀ b, (c b).id = b.id)
    (ho : ∀ b o, (c b).opIds.count o ≤ b.opIds.count o)
    (hr : ∀ b r, (c b).defs.count r ≤ b.defs.count r) :
    ({ f with graph := f.graph.mapBlocks c } : Function).Spare head ops regs :=
  h.mapBlocks (c := fun _ b => c b) (fun _ b => hid b) (fun _ b _ o => ho b o) fun _ b _ r => hr b r

/-- Instructions that are left out of blocks. -/
theorem Spare.filterInstructions (h : f.Spare head ops regs) (p : Block → Operation Instruction → Bool) :
    ({ f with graph := f.graph.mapBlocks fun b =>
      { b with instructions := b.instructions.filter (p b) } } : Function).Spare head ops regs := by
  refine h.mapAllBlocks (fun _ => rfl) (fun b o => ?_) fun b r => ?_
  · simp only [Block.count_opIds]
    have hc := (filter_sublist (p := p b) (l := b.instructions)).map Operation.id |>.count_le o
    omega
  · simp only [Block.count_defs]
    have hc := ((filter_sublist (p := p b) (l := b.instructions)).filterMap
      fun o => o.kind.dest?).count_le r
    omega

theorem Spare.mapInstructions (h : f.Spare head ops regs) {c : Instruction → Instruction}
    (hc : ∀ i, (c i).dest? = i.dest?) :
    ({ f with graph := f.graph.mapBlocks fun b => b.mapInstructions c } : Function).Spare head ops regs := by
  refine h.mapAllBlocks (fun _ => rfl) (fun b o => ?_) fun b r => ?_
  · simp [Block.count_opIds, Block.mapInstructions, Operation.map, Function.comp_def]
  · simp [Block.count_defs, Block.mapInstructions, Operation.map, filterMap_map, hc]

end Function

namespace Branches

variable {f g : Function} {head : Outline} {ops : List OpId} {regs : List Reg}

theorem foldBranch_spare {b target : BlockId} (h : f.Spare head ops regs)
    (hf : foldBranch f b target = .ok g) : g.Spare head ops regs := by
  unfold foldBranch at hf
  split at hf
  · cases hf
    exact h
  · next block _ =>
    obtain ⟨⟨f₁, branch⟩, h₁, hf⟩ := bind_eq_ok.mp hf
    cases hf
    have hs : (f₁.modifyBlock b fun block => { block with terminator := branch }).Spare head ops
        regs := by
      refine (h.op h₁).1.modifyBlock (fun _ => rfl) (fun _ => ⟨fun a => ?_, fun _ => Nat.le_refl _⟩)
        fun c _ => ⟨fun a => ?_, fun _ => Nat.le_refl _⟩
      · rw [count_cons]
        omega
      · simp only [Block.count_opIds, count_cons, count_nil]
        omega
    exact hs.mapPhis _ fun _ => rfl

theorem foldAll_spare {l : List (BlockId × BlockId)} (h : f.Spare head ops regs)
    (hf : foldAll l f = .ok g) : g.Spare head ops regs := by
  induction l generalizing f with
  | nil =>
    cases hf
    exact h
  | cons e l ih =>
    obtain ⟨f₁, h₁, hf⟩ := bind_eq_ok.mp hf
    exact ih (foldBranch_spare h h₁) hf

theorem transform_spare {r : Report} (h : f.Spare head ops regs) (hf : transform f = .ok (g, r)) :
    g.Spare head ops regs := by
  obtain ⟨f₁, h₁, hf⟩ := bind_eq_ok.mp hf
  have hs := (foldAll_spare h h₁).removeDeadBlocks
  dsimp only at hf
  split at hf
  · cases hf
    exact hs
  · cases hf
    exact hs

end Branches

namespace DeadCode

variable {f g : Function} {head : Outline} {ops : List OpId} {regs : List Reg}

theorem count_opIds_sweepBlock (used : List Reg) (b : Block) (o : OpId) :
    (sweepBlock used b).opIds.count o ≤ b.opIds.count o := by
  have hp := ((filter_sublist (l := b.phis)
    (p := fun p => keepsPhi used p.kind)).map Operation.id).count_le o
  have hi := ((filter_sublist (l := b.instructions)
    (p := fun i => keeps used i.kind)).map Operation.id).count_le o
  simp only [Block.count_opIds, sweepBlock]
  omega

theorem count_defs_sweepBlock (used : List Reg) (b : Block) (r : Reg) :
    (sweepBlock used b).defs.count r ≤ b.defs.count r := by
  have hp := ((filter_sublist (l := b.phis)
    (p := fun p => keepsPhi used p.kind)).map fun p => p.kind.dest).count_le r
  have hi := ((filter_sublist (l := b.instructions)
    (p := fun i => keeps used i.kind)).filterMap fun o => o.kind.dest?).count_le r
  simp only [Block.count_defs, sweepBlock]
  omega

theorem sweep_spare (h : f.Spare head ops regs) : (sweep f).Spare head ops regs :=
  h.mapAllBlocks (fun _ => rfl) (count_opIds_sweepBlock _) (count_defs_sweepBlock _)

theorem settle_spare {n : Nat} (h : f.Spare head ops regs) : (settle n f).Spare head ops regs := by
  induction n generalizing f with
  | zero => exact h
  | succ n ih =>
    unfold settle
    dsimp only
    split
    · exact h
    · exact ih (sweep_spare h)

theorem transform_spare {r : Report} (h : f.Spare head ops regs) (hf : transform f = .ok (g, r)) :
    g.Spare head ops regs := by
  have hs := settle_spare (n := size f + 1) h
  unfold transform eliminate at hf
  dsimp only at hf
  split at hf
  · cases hf
    exact hs
  · cases hf
    exact hs

end DeadCode

/-- A pass on a function puts only new numbers into it. -/
theorem FunctionPass.transform_spare (p : FunctionPass) {f g : Function} {head : Outline}
    {ops : List OpId} {regs : List Reg} {r : Report} (h : f.Spare head ops regs)
    (hf : p.transform f = .ok (g, r)) : g.Spare head ops regs := by
  cases p with
  | simplifyCfg => exact Branches.transform_spare h hf
  | deadCode => exact DeadCode.transform_spare h hf
  | spill => exact Spill.transform_spare h hf

theorem Module.Numbered.mapInstructions {m : Module} (h : m.Numbered)
    {c : Instruction → Instruction} (hc : ∀ i, (c i).dest? = i.dest?) :
    (m.mapInstructions c).Numbered := by
  refine h.mapFunctions fun f hf => ?_
  exact ⟨((Function.numbered_iff.mp hf).mapInstructions hc).numbered trivial trivial |>.1, rfl⟩

namespace Globals

variable {m n : Module} {r : Report} {f : Function}

theorem simplifyFunction_spare (known : List (GlobalId × Const)) (idle : List GlobalId)
    {head : Outline} {ops : List OpId} {regs : List Reg} (h : f.Spare head ops regs) :
    (simplifyFunction known idle f).Spare head ops regs := by
  unfold simplifyFunction
  split
  · have hfold : ∀ i, (foldLoad known i).dest? = i.dest? := by
      intro i
      unfold foldLoad
      split
      · split <;> rfl
      · rfl
    have hs := (h.mapInstructions hfold).filterInstructions fun _ o => !isIdleStore idle o.kind
    have he : f.graph.mapBlocks (simplifyBlock known idle) =
        (f.graph.mapBlocks fun b => b.mapInstructions (foldLoad known)).mapBlocks fun b =>
          { b with instructions := b.instructions.filter fun o => !isIdleStore idle o.kind } := by
      simp [Graph.mapBlocks, Table.map, Table.mapWithKey, simplifyBlock, Function.comp_def]
    rw [he]
    exact hs
  · exact h

theorem simplifyFunction_numbered {known : List (GlobalId × Const)} {idle : List GlobalId}
    (h : f.Numbered) :
    (simplifyFunction known idle f).Numbered ∧ (simplifyFunction known idle f).id = f.id := by
  have hs := simplifyFunction_spare known idle (Function.numbered_iff.mp h)
  exact ⟨(hs.numbered trivial trivial).1, congrArg Header.id hs.header⟩

theorem simplify_numbered (h : m.Numbered) (hm : simplify m = .ok (n, r)) : n.Numbered := by
  unfold simplify at hm
  cases hm
  refine Module.Numbered.mapFunctions (m := { m with globals := _ }) ?_ fun f hf =>
    simplifyFunction_numbered hf
  refine h.narrow (fun k g hk => ⟨g, hk, h.function k g hk, rfl⟩) (fun k g hk => ?_) rfl rfl
  simp only [Table.get?_mapWithKey] at hk
  obtain ⟨g', hg', rfl⟩ := map_eq_some_iff.mp hk
  refine ⟨g', hg', ?_⟩
  split <;> rfl

theorem prune_numbered (h : m.Numbered) (hm : prune m = .ok (n, r)) : n.Numbered := by
  unfold prune at hm
  dsimp only at hm
  split at hm
  · cases hm
    exact h
  · cases hm
    exact h.filter _ _

end Globals

namespace Duplicates

variable {m n : Module} {r : Report}

theorem mergeConstants_numbered (h : m.Numbered) (hm : mergeConstants m = .ok (n, r)) :
    n.Numbered := by
  obtain ⟨t, -, hm⟩ := bind_eq_ok.mp hm
  split at hm
  · cases hm
    exact h
  · cases hm
    have hc : ∀ i, (redirectGlobal t i).dest? = i.dest? := fun i => by cases i <;> rfl
    refine (h.mapInstructions hc).narrow (fun k g hk => ⟨g, hk, ?_, rfl⟩) (fun k g hk => ?_) rfl rfl
    · exact (h.mapInstructions hc).function k g hk
    · simp only [Table.get?_filter] at hk
      exact ⟨g, (filter_eq_some_iff.mp hk).1, rfl⟩

theorem mergeFunctions_numbered (h : m.Numbered) (hm : mergeFunctions m = .ok (n, r)) :
    n.Numbered := by
  obtain ⟨t, -, hm⟩ := bind_eq_ok.mp hm
  split at hm
  · cases hm
    exact h
  · cases hm
    have hc : ∀ i, (redirectFunction t i).dest? = i.dest? := fun i => by cases i <;> rfl
    refine (h.mapInstructions hc).narrow (fun k g hk => ?_) (fun k g hk => ⟨g, hk, rfl⟩) rfl rfl
    simp only [Module.function?, Table.get?_filter] at hk
    have hs := (filter_eq_some_iff.mp hk).1
    exact ⟨g, hs, (h.mapInstructions hc).function k g hs, rfl⟩

end Duplicates

end SiteFusion
