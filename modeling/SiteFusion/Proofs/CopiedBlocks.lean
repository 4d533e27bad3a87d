import SiteFusion.Proofs.Frames
import SiteFusion.Proofs.NumberedInline

namespace SiteFusion

open List Option

namespace Inline

variable {f g : Function} {ops : List OpId} {copied : List OpId} {o : Operation Instruction}
  {t : Table BlockId BlockId} {trap : Option BlockId}

theorem renameRegs_ticks {l : List (Reg × Ty)} {t t' : Table Reg Operand}
    (hg : renameRegs l f t = .ok (g, t')) :
    f.Ticks g ∧ ∀ r, (r ∈ l.map Prod.fst ∨ ∃ r', t.get? r = some (.reg r')) →
      ∃ r', t'.get? r = some (.reg r') := by
  induction l generalizing f t with
  | nil =>
    cases hg
    exact ⟨.refl _, fun r hr => hr.resolve_left (by simp)⟩
  | cons x l ih =>
    obtain ⟨r₀, ty⟩ := x
    obtain ⟨⟨f₁, new⟩, h₁, hg⟩ := bind_eq_ok.mp hg
    obtain ⟨htick, hmap⟩ := ih hg
    refine ⟨(Function.ticks_freshTyped h₁).trans htick, fun r hr => hmap r ?_⟩
    rw [Table.get?_insert]
    by_cases he : r = r₀
    · exact .inr ⟨new, if_pos he⟩
    · rw [if_neg he]
      exact hr.imp_left fun h => (mem_cons.mp h).resolve_left he

/-- Something else in the same place, with the same notes. -/
def IsCopy {κ : Type} (c : κ → κ) (copied : List OpId) (o o' : Operation κ) : Prop :=
  o'.kind = c o.kind ∧ o'.tags = o.tags ∧ o'.id ∈ copied

theorem copyOps_ticks {κ : Type} {c : κ → κ} {l l' : List (Operation κ)}
    (hg : copyOps c l f = .ok (g, l')) (hl : ∀ o ∈ l', o.id ∈ copied) :
    f.Ticks g ∧ f.graph.nextOp ≤ g.graph.nextOp ∧ (∀ o ∈ l', f.graph.nextOp ≤ o.id.index) ∧
      List.Forall₂ (IsCopy c copied) l l' := by
  induction l generalizing f l' with
  | nil =>
    cases hg
    exact ⟨.refl _, UInt32.le_refl _, by simp, .nil⟩
  | cons o l ih =>
    obtain ⟨⟨f₁, o'⟩, h₁, hg⟩ := bind_eq_ok.mp hg
    obtain ⟨⟨f₂, rest⟩, h₂, hg⟩ := bind_eq_ok.mp hg
    cases hg
    obtain ⟨htick, hkind, htags⟩ := Function.ticks_op h₁
    obtain ⟨hrest, hnext, hids, hcopy⟩ := ih h₂ fun a ha => hl a (mem_cons_of_mem _ ha)
    obtain ⟨rfl, next, hn, rfl⟩ := Function.op_eq_ok h₁
    have hle : f.graph.nextOp ≤ next := by
      rw [UInt32.le_iff_toNat_le]
      omega
    refine ⟨htick.trans hrest, UInt32.le_trans hle hnext, fun a ha => ?_,
      .cons ⟨hkind, htags, hl _ mem_cons_self⟩ hcopy⟩
    rcases mem_cons.mp ha with rfl | ha
    · exact UInt32.le_refl _
    · exact UInt32.le_trans hle (hids a ha)

/-- A block that was copied. -/
structure Cloned (n : Mapping) (continuation : BlockId) (copied : List OpId) (c b : Block) :
    Prop where
  phis : List.Forall₂ (IsCopy n.phi copied) c.phis b.phis
  instructions : List.Forall₂ (IsCopy n.instruction copied) c.instructions b.instructions
  terminator : IsCopy (copyTerminator n continuation) copied c.terminator b.terminator

theorem IsCopy.mono {κ : Type} {c : κ → κ} {copied' : List OpId} {o o' : Operation κ}
    (hs : ∀ a ∈ copied, a ∈ copied') (h : IsCopy c copied o o') : IsCopy c copied' o o' :=
  ⟨h.1, h.2.1, hs _ h.2.2⟩

section

variable {n : Mapping} {continuation : BlockId} {copied copied' : List OpId} {c b : Block}
  {d : Copied} {result : Ty}

theorem Cloned.mono (h : Cloned n continuation copied c b) (hs : ∀ a ∈ copied, a ∈ copied') :
    Cloned n continuation copied' c b :=
  ⟨h.phis.imp fun _ _ => .mono hs, h.instructions.imp fun _ _ => .mono hs, h.terminator.mono hs⟩

theorem copyBlock_cases {key : BlockId} (hg : copyBlock n result continuation key c f = .ok (g, d)) :
    ∃ f' φ, f.Ticks f' ∧ f.graph.nextOp ≤ f'.graph.nextOp ∧ g = f'.modifyBlock (n.label key) φ ∧
      (∀ op ∈ d.ops, f.graph.nextOp ≤ op.index) ∧ ∀ t, Cloned n continuation d.ops c (φ t) := by
  obtain ⟨⟨f₁, phis⟩, h₁, hg⟩ := bind_eq_ok.mp hg
  obtain ⟨⟨f₂, insts⟩, h₂, hg⟩ := bind_eq_ok.mp hg
  obtain ⟨⟨f₃, term⟩, h₃, hg⟩ := bind_eq_ok.mp hg
  cases hg
  let copied := phis.map Operation.id ++ insts.map Operation.id ++ [term.id]
  have hp : ∀ p ∈ phis, p.id ∈ copied := fun p hp =>
    mem_append_left _ (mem_append_left _ (List.mem_map_of_mem hp))
  have hi : ∀ o ∈ insts, o.id ∈ copied := fun o ho =>
    mem_append_left _ (mem_append_right _ (List.mem_map_of_mem ho))
  obtain ⟨t₁, le₁, ids₁, hphis⟩ := copyOps_ticks h₁ hp
  obtain ⟨t₂, le₂, ids₂, hinsts⟩ := copyOps_ticks h₂ hi
  obtain ⟨t₃, hkind, htags⟩ := Function.ticks_op h₃
  obtain ⟨hterm, next, hn, hf₃⟩ := Function.op_eq_ok h₃
  have le₃ : f₂.graph.nextOp ≤ f₃.graph.nextOp := by
    rw [hf₃, UInt32.le_iff_toNat_le]
    dsimp only
    omega
  refine ⟨f₃, _, t₁.trans (t₂.trans t₃), UInt32.le_trans le₁ (UInt32.le_trans le₂ le₃), rfl,
    fun op hop => ?_, fun t => ⟨hphis, hinsts, hkind, htags, mem_append_right _ (by simp)⟩⟩
  simp only [mem_append, List.mem_map, mem_singleton] at hop
  rcases hop with (⟨p, hp, rfl⟩ | ⟨o, ho, rfl⟩) | rfl
  · exact ids₁ p hp
  · exact UInt32.le_trans le₁ (ids₂ o ho)
  · rw [hterm]
    exact UInt32.le_trans le₁ le₂

/-- Blocks were copied to their places, and all other blocks are what they were. -/
structure Copies (n : Mapping) (continuation : BlockId) (trap : Option BlockId)
    (l : List (BlockId × Block)) (f g : Function) (copied : List OpId) : Prop where
  frame : f.Frame g
  counter : f.graph.nextOp ≤ g.graph.nextOp
  issued : ∀ op ∈ copied, f.graph.nextOp ≤ op.index
  block : ∀ k b, g.graph.block? k = some b →
    f.graph.block? k = some b ∧ (∀ x ∈ l, some x.1 ≠ trap → n.label x.1 ≠ k) ∨
    ∃ x ∈ l, some x.1 ≠ trap ∧ n.label x.1 = k ∧ Cloned n continuation copied x.2 b

theorem copyBlocks_copies {trap : Option BlockId} {l : List (BlockId × Block)}
    (hg : copyBlocks n result continuation trap l f = .ok (g, d)) :
    Copies n continuation trap l f g d.ops := by
  induction l generalizing f d with
  | nil =>
    cases hg
    exact ⟨.refl _, UInt32.le_refl _, by simp, fun k b hb => .inl ⟨hb, by simp⟩⟩
  | cons x l ih =>
    obtain ⟨key, c⟩ := x
    unfold copyBlocks at hg
    split at hg
    · next ht =>
      have h := ih hg
      refine ⟨h.frame, h.counter, h.issued, fun k b hb => (h.block k b hb).imp ?_ ?_⟩
      · refine And.imp_right fun hl y hy hne => ?_
        rcases mem_cons.mp hy with rfl | hy
        · exact absurd ht hne
        · exact hl y hy hne
      · rintro ⟨y, hy, hrest⟩
        exact ⟨y, mem_cons_of_mem _ hy, hrest⟩
    · next ht =>
      obtain ⟨⟨f₁, d₁⟩, h₁, hg⟩ := bind_eq_ok.mp hg
      obtain ⟨⟨f₂, d₂⟩, h₂, hg⟩ := bind_eq_ok.mp hg
      cases hg
      obtain ⟨f', φ, htick, hle, rfl, hissued, hclone⟩ := copyBlock_cases h₁
      have h := ih h₂
      refine ⟨(htick.frame.trans (Function.frame_modifyBlock _ _ _)).trans h.frame,
        UInt32.le_trans hle h.counter, fun op hop => ?_, fun k b hb => ?_⟩
      · rcases mem_append.mp hop with hop | hop
        · exact hissued op hop
        · exact UInt32.le_trans hle (h.issued op hop)
      · rcases h.block k b hb with ⟨hb', hl⟩ | ⟨y, hy, hne, hk, hc⟩
        · rw [Function.block?_modifyBlock] at hb'
          split at hb'
          · next hk =>
            obtain ⟨t, -, rfl⟩ := map_eq_some_iff.mp hb'
            exact .inr ⟨(key, c), mem_cons_self, ht, hk.symm,
              (hclone t).mono fun _ h => mem_append_left _ h⟩
          · next hk =>
            refine .inl ⟨htick.block? k ▸ hb', fun y hy hne => ?_⟩
            rcases mem_cons.mp hy with rfl | hy
            · exact fun he => hk he.symm
            · exact hl y hy hne
        · exact .inr ⟨y, mem_cons_of_mem _ hy, hne, hk,
            hc.mono fun _ h => mem_append_right _ h⟩

end

section

variable {n : Mapping} {continuation : BlockId}

theorem successors_copyTerminator {t : Terminator} {s : BlockId}
    (hs : s ∈ (copyTerminator n continuation t).successors) :
    s = continuation ∨ ∃ s₀ ∈ t.successors, s = n.label s₀ := by
  have hmap : ∀ t : Terminator, (n.terminator t).successors = t.successors.map n.label := by
    intro t
    rw [Mapping.terminator, Function.successors_mapTargets]
    cases t <;> rfl
  cases t with
  | ret v => exact .inl (mem_singleton.mp hs)
  | _ =>
    refine .inr ?_
    obtain ⟨s₀, hs₀, rfl⟩ := List.mem_map.mp (hmap _ ▸ hs)
    exact ⟨s₀, hs₀, rfl⟩

end

def withAllocas (l : List (Operation Instruction)) (b : Block) : Block :=
  { b with
    instructions := b.instructions.take b.allocaCount ++ l ++ b.instructions.drop b.allocaCount }

def withoutAllocas (b : Block) : Block :=
  { b with instructions := b.instructions.filter fun o => !o.kind.isAlloca }

section

variable {key k : BlockId} {b : Block}

theorem hoistAllocas_eq (hb : f.graph.block? key = some b) :
    hoistAllocas f key = (f.modifyBlock key withoutAllocas).modifyBlock f.graph.entry
      (withAllocas (b.instructions.filter fun o => o.kind.isAlloca)) := by
  rw [hoistAllocas, hb]
  rfl

theorem block?_hoistAllocas (hb : f.graph.block? key = some b) (hne : key ≠ f.graph.entry) :
    (hoistAllocas f key).graph.block? k = if k = f.graph.entry then
      (f.graph.block? k).map (withAllocas (b.instructions.filter fun o => o.kind.isAlloca))
      else if k = key then some (withoutAllocas b) else f.graph.block? k := by
  rw [hoistAllocas_eq hb, Function.block?_modifyBlock, Function.block?_modifyBlock]
  by_cases hk : k = f.graph.entry
  · rw [if_pos hk, if_pos hk, if_neg (hk ▸ hne.symm)]
  · rw [if_neg hk, if_neg hk]
    by_cases hk' : k = key
    · rw [if_pos hk', if_pos hk', hk', hb]
      rfl
    · rw [if_neg hk', if_neg hk']

theorem frame_hoistAllocas (f : Function) (key : BlockId) : f.Frame (hoistAllocas f key) := by
  unfold hoistAllocas
  split
  · exact .refl f
  · exact (Function.frame_modifyBlock f _ _).trans (Function.frame_modifyBlock _ _ _)

end

end Inline

end SiteFusion
