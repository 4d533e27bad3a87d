import SiteFusion.Proofs.NumberedSites
import SiteFusion.Proofs.Reaching

namespace SiteFusion

open List Option

theorem forall₂_exists_left {α β : Type} {R : α → β → Prop} {as : List α} {bs : List β}
    (h : List.Forall₂ R as bs) {y : β} (hy : y ∈ bs) : ∃ x ∈ as, R x y := by
  induction h with
  | nil => cases hy
  | cons hab _ ih =>
    rcases mem_cons.mp hy with rfl | hy
    · exact ⟨_, mem_cons_self, hab⟩
    · obtain ⟨x, hx, hR⟩ := ih hy
      exact ⟨x, mem_cons_of_mem _ hx, hR⟩

def Block.Calls (b : Block) (op : OpId) (callee : FuncId) : Prop :=
  ∃ o ∈ b.instructions, o.id = op ∧ o.kind.callee? = some callee

namespace Function

def There (f : Function) (k : BlockId) : Prop :=
  f.graph.blocks.contains k = true ∧ k ≠ f.graph.entry

def Calls (f : Function) (op : OpId) (callee : FuncId) : Prop :=
  ∃ k b, f.graph.block? k = some b ∧ b.Calls op callee

/-- A block ends in the switch of a site. -/
def Ends (f : Function) (k : BlockId) (x : String × UInt64) : Prop :=
  ∃ b, f.graph.block? k = some b ∧ Site.dispatch? b = some x

def Bare (f : Function) : Prop := ∀ k b, f.graph.block? k = some b → b.phis = []

/-- What stays the same even when another body is put into a function. -/
def face (f : Function) : Header :=
  { f.header with attributes := { f.attributes with gc := none } }

variable {f : Function} {k : BlockId} {c : BlockId → Block → Block} {s : BlockId}

/-- The function with all its blocks changed, each with a look at its key. -/
def mapBlocks (f : Function) (c : BlockId → Block → Block) : Function :=
  { f with graph := { f.graph with blocks := f.graph.blocks.mapWithKey c } }

theorem block?_mapBlocks (f : Function) (c : BlockId → Block → Block) (k : BlockId) :
    (f.mapBlocks c).graph.block? k = (f.graph.block? k).map (c k) :=
  Table.get?_mapWithKey f.graph.blocks c k

theorem contains_mapBlocks :
    (f.mapBlocks c).graph.blocks.contains s = f.graph.blocks.contains s := by
  rw [Table.contains, Table.contains]
  refine (congrArg Option.isSome (block?_mapBlocks f c s)).trans ?_
  rw [isSome_map]
  rfl

theorem modifyBlock_eq_mapBlocks (f : Function) (k : BlockId) (c : Block → Block) :
    f.modifyBlock k c = f.mapBlocks fun k' b => if k' = k then c b else b := rfl

theorem successors_mapTargets (t : Terminator) (φ : BlockId → BlockId) :
    (t.mapTargets φ).successors = t.successors.map φ := by
  cases t <;> simp [Terminator.mapTargets, Terminator.successors, Function.comp_def]

theorem splitBlock_frame {tail : Option BlockId} {i : Nat}
    (hs : f.splitBlock k i = .ok (f₁, tail)) : f₁.trap = f.trap ∧ f₁.nextReg = f.nextReg := by
  obtain ⟨⟨g, t⟩, -, hs⟩ := bind_eq_ok.mp hs
  cases hs
  exact ⟨rfl, rfl⟩

/-- Only counters and the types of registers are different. -/
structure Ticks (f g : Function) : Prop where
  header : g.header = f.header
  blocks : g.graph.blocks = f.graph.blocks
  trap : g.trap = f.trap
  label : g.graph.nextBlock = f.graph.nextBlock
  counter : f.nextReg ≤ g.nextReg

variable {f g h : Function} {r : Reg}

theorem Ticks.refl (f : Function) : f.Ticks f := ⟨rfl, rfl, rfl, rfl, UInt32.le_refl _⟩

theorem Ticks.trans (hg : f.Ticks g) (hh : g.Ticks h) : f.Ticks h :=
  ⟨hh.header.trans hg.header, hh.blocks.trans hg.blocks, hh.trap.trans hg.trap,
    hh.label.trans hg.label, UInt32.le_trans hg.counter hh.counter⟩

theorem Ticks.block? (h : f.Ticks g) (k : BlockId) : g.graph.block? k = f.graph.block? k := by
  rw [Graph.block?, Graph.block?, h.blocks]

theorem face_eq_of_header (h : g.header = f.header) : g.face = f.face := by
  rw [face, face, h]
  exact congrArg (fun a : Attributes => { f.header with attributes := { a with gc := none } })
    (congrArg Header.attributes h)

theorem ticks_op {κ : Type} {kind : κ} {tags : Tags} {o : Operation κ}
    (ho : f.op kind tags = .ok (g, o)) : f.Ticks g ∧ o.kind = kind ∧ o.tags = tags := by
  obtain ⟨rfl, next, -, rfl⟩ := op_eq_ok ho
  exact ⟨⟨rfl, rfl, rfl, rfl, UInt32.le_refl _⟩, rfl, rfl⟩

theorem ticks_freshTyped {ty : Ty} (hr : f.freshTyped ty = .ok (g, r)) : f.Ticks g := by
  obtain ⟨-, next, hnext, rfl⟩ := freshTyped_eq_ok hr
  refine ⟨rfl, rfl, rfl, rfl, UInt32.le_iff_toNat_le.mpr ?_⟩
  exact Nat.le_of_lt (Nat.lt_of_lt_of_eq (Nat.lt_succ_self _) hnext.symm)

/-- The blocks are where they were. -/
structure Frame (f g : Function) : Prop where
  header : g.header = f.header
  trap : g.trap = f.trap
  label : g.graph.nextBlock = f.graph.nextBlock
  keys : ∀ k, g.graph.blocks.contains k = f.graph.blocks.contains k

theorem Frame.refl (f : Function) : f.Frame f := ⟨rfl, rfl, rfl, fun _ => rfl⟩

theorem Frame.trans (hg : f.Frame g) (hh : g.Frame h) : f.Frame h :=
  ⟨hh.header.trans hg.header, hh.trap.trans hg.trap, hh.label.trans hg.label,
    fun k => (hh.keys k).trans (hg.keys k)⟩

theorem Ticks.frame (h : f.Ticks g) : f.Frame g :=
  ⟨h.header, h.trap, h.label, fun k => by rw [h.blocks]⟩

theorem frame_modifyBlock (f : Function) (k : BlockId) (c : Block → Block) :
    f.Frame (f.modifyBlock k c) :=
  ⟨rfl, rfl, rfl, fun _ => contains_mapBlocks⟩

theorem Frame.entry (h : f.Frame g) : g.graph.entry = f.graph.entry :=
  congrArg Header.entry h.header

end Function

theorem Spill.newLoad_ticks {f g : Function} {ty : Ty} {tags : Tags} {slot v : Reg}
    {o : Operation Instruction} (hg : newLoad f slot ty tags = .ok (g, v, o)) :
    f.Ticks g ∧ o.kind = .load v (.reg slot) ty ∧ o.tags = tags := by
  obtain ⟨⟨f₁, r⟩, h₁, hg⟩ := bind_eq_ok.mp hg
  obtain ⟨⟨f₂, o'⟩, h₂, hg⟩ := bind_eq_ok.mp hg
  cases hg
  obtain ⟨htick, hkind, htags⟩ := Function.ticks_op h₂
  exact ⟨(Function.ticks_freshTyped h₁).trans htick, hkind, htags⟩

/-- A block as it was, but for what its phis expect. -/
structure Block.Kept (b b' : Block) : Prop where
  phis : b'.phis.map Operation.tags = b.phis.map Operation.tags
  instructions : b'.instructions = b.instructions
  terminator : b'.terminator = b.terminator

namespace Block

variable {b b' b'' : Block}

theorem Kept.refl (b : Block) : b.Kept b := ⟨rfl, rfl, rfl⟩

theorem Kept.trans (h : b.Kept b') (h' : b'.Kept b'') : b.Kept b'' :=
  ⟨h'.phis.trans h.phis, h'.instructions.trans h.instructions, h'.terminator.trans h.terminator⟩

theorem kept_mapPhis (b : Block) (c : Phi → Phi) : b.Kept (b.mapPhis c) := by
  refine ⟨?_, rfl, rfl⟩
  simp [mapPhis, Operation.map, Function.comp_def]

end Block

namespace Function

variable {f : Function}

theorem block?_removeBlock (f : Function) (d : BlockId) :
    ∃ c : BlockId → Block → Block, (∀ k (b : Block), b.Kept (c k b)) ∧ ∀ k,
      (f.removeBlock d).graph.block? k = if k = d then none else (f.graph.block? k).map (c k) := by
  unfold removeBlock Graph.removeBlock
  cases hd : f.graph.block? d with
  | none =>
    refine ⟨fun _ b => b, fun _ b => .refl b, fun k => ?_⟩
    rw [Option.map_id']
    by_cases hk : k = d
    · rw [if_pos hk, hk]
      exact hd
    · rw [if_neg hk]
  | some block =>
    refine ⟨fun k b => if block.successors.contains k then b.mapPhis fun p => p.removeIncoming d
      else b, fun k b => ?_, fun k => ?_⟩
    · dsimp only
      split
      · exact b.kept_mapPhis _
      · exact .refl b
    · refine (Table.get?_mapWithKey _ _ k).trans ?_
      rw [Table.get?_erase]
      by_cases hk : k = d
      · rw [if_pos hk, if_pos hk]
        rfl
      · rw [if_neg hk, if_neg hk]
        rfl

theorem block?_removeBlocks (l : List BlockId) (f : Function) :
    ∃ c : BlockId → Block → Block, (∀ k (b : Block), b.Kept (c k b)) ∧ ∀ k,
      (l.foldl removeBlock f).graph.block? k =
        if k ∈ l then none else (f.graph.block? k).map (c k) := by
  induction l generalizing f with
  | nil =>
    refine ⟨fun _ b => b, fun _ b => .refl b, fun k => ?_⟩
    simp
  | cons d l ih =>
    obtain ⟨c₁, hc₁, h₁⟩ := block?_removeBlock f d
    obtain ⟨c₂, hc₂, h₂⟩ := ih (f.removeBlock d)
    refine ⟨fun k b => c₂ k (c₁ k b), fun k b => (hc₁ k b).trans (hc₂ k _), fun k => ?_⟩
    rw [foldl_cons, h₂, h₁]
    by_cases hl : k ∈ l
    · simp [hl]
    · by_cases hd : k = d
      · simp [hd]
      · simp [hl, hd, Function.comp_def]

theorem removeBlocks_frame (l : List BlockId) (f : Function) :
    (l.foldl removeBlock f).header = f.header ∧
      (l.foldl removeBlock f).graph.nextBlock = f.graph.nextBlock ∧
      ((l.foldl removeBlock f).trap = f.trap ∨ (l.foldl removeBlock f).trap = none) := by
  induction l generalizing f with
  | nil => exact ⟨rfl, rfl, .inl rfl⟩
  | cons d l ih =>
    have hone : (f.removeBlock d).header = f.header ∧
        (f.removeBlock d).graph.nextBlock = f.graph.nextBlock ∧
        ((f.removeBlock d).trap = f.trap ∨ (f.removeBlock d).trap = none) := by
      unfold removeBlock Graph.removeBlock
      refine ⟨?_, ?_, ?_⟩
      · split <;> rfl
      · split <;> rfl
      · dsimp only
        split
        · exact .inr rfl
        · exact .inl rfl
    obtain ⟨hhead, hnext, htrap⟩ := ih (f.removeBlock d)
    refine ⟨hhead.trans hone.1, hnext.trans hone.2.1, ?_⟩
    rw [foldl_cons]
    rcases htrap with htrap | htrap
    · rw [htrap]
      exact hone.2.2
    · exact .inr htrap

theorem block?_removeDeadBlocks (f : Function) :
    ∃ c : BlockId → Block → Block, (∀ k (b : Block), b.Kept (c k b)) ∧ ∀ k,
      f.removeDeadBlocks.graph.block? k =
        if k ∈ f.graph.reachable then (f.graph.block? k).map (c k) else none := by
  obtain ⟨c, hc, hblock⟩ := block?_removeBlocks f.deadBlocks f
  refine ⟨c, hc, fun k => (hblock k).trans ?_⟩
  by_cases hk : k ∈ f.graph.reachable
  · rw [if_pos hk, if_neg]
    simp [deadBlocks, hk]
  · rw [if_neg hk]
    cases hb : f.graph.block? k with
    | none => exact ite_self _
    | some b =>
      have hkey : k ∈ f.graph.blocks.keys := Table.mem_keys_iff.mpr ⟨b, hb⟩
      rw [if_pos]
      simp [deadBlocks, hk, hkey]

theorem of_block?_removeDeadBlocks {k : BlockId} {b : Block}
    (hb : f.removeDeadBlocks.graph.block? k = some b) :
    k ∈ f.graph.reachable ∧ ∃ b', f.graph.block? k = some b' ∧ b'.Kept b := by
  obtain ⟨c, hc, hblock⟩ := f.block?_removeDeadBlocks
  rw [hblock] at hb
  split at hb
  · next hreach =>
    obtain ⟨b', hb', rfl⟩ := map_eq_some_iff.mp hb
    exact ⟨hreach, b', hb', hc k b'⟩
  · cases hb

theorem isDeclaration_of_removeDeadBlocks (h : f.removeDeadBlocks.isDeclaration = false) :
    f.isDeclaration = false := by
  have hkind : f.removeDeadBlocks.kind = f.kind :=
    congrArg Header.kind (removeBlocks_frame f.deadBlocks f).1
  rw [isDeclaration, Bool.or_eq_false_iff] at h ⊢
  refine ⟨hkind ▸ h.1, ?_⟩
  obtain ⟨⟨k, b⟩, hb⟩ := isEmpty_eq_false_iff_exists_mem.mp h.2
  obtain ⟨-, b', hb', -⟩ := of_block?_removeDeadBlocks (Table.get?_eq_some_iff.mpr hb)
  exact isEmpty_eq_false_iff_exists_mem.mpr ⟨_, Table.get?_eq_some_iff.mp hb'⟩

end Function

end SiteFusion
