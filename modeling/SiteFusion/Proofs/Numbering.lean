import Mathlib.Data.List.Nodup
import SiteFusion.Code.Module
import SiteFusion.Proofs.Tables

namespace SiteFusion

open List Option

variable {β : Type} {f : Function}

theorem Counter.next_eq_ok {c : Counter} {n m : UInt32} (h : c.next n = .ok m) :
    m.toNat = n.toNat + 1 := by
  rw [Counter.next] at h
  split at h
  · next hlt =>
    cases h
    have hn : n.toNat < 4294967295 := UInt32.lt_iff_toNat_lt.mp hlt
    rw [UInt32.toNat_add]
    simp only [UInt32.reduceToNat]
    omega
  · cases h

/-- The registers that a function defines, its parameters first. -/
def Function.defs (f : Function) : List Reg :=
  f.signature.params.map Param.reg ++ f.graph.blockList.flatMap Block.defs

/-- The operations of a function, in program order. -/
def Function.opIds (f : Function) : List OpId := f.graph.blockList.flatMap Block.opIds

/-- The numbers in a function tell its parts apart, and come from its counters. -/
structure Function.Numbered (f : Function) : Prop where
  blockKey : ∀ k b, f.graph.block? k = some b → b.id = k
  blockBound : ∀ k b, f.graph.block? k = some b → k.index < f.graph.nextBlock
  opBound : ∀ o ∈ f.opIds, o.index < f.graph.nextOp
  defBound : ∀ r ∈ f.defs, r.index < f.nextReg
  opOnce : f.opIds.Nodup
  defOnce : f.defs.Nodup

/-- The numbers of operations tell them apart, and come from a counter. So do the numbers of blocks if
they are `fresh`. The counter of registers may be stale, and they may have several definitions. -/
structure Function.Counted (f : Function) (fresh : Prop) : Prop where
  blockKey : ∀ k b, f.graph.block? k = some b → b.id = k
  blockBound : fresh → ∀ k b, f.graph.block? k = some b → k.index < f.graph.nextBlock
  opBound : ∀ o ∈ f.opIds, o.index < f.graph.nextOp
  opOnce : f.opIds.Nodup

instance (f : Function) (fresh : Prop) [Decidable fresh] : Decidable (f.Counted fresh) :=
  decidable_of_iff
    ((∀ k b, f.graph.blocks.get? k = some b → b.id = k ∧ (fresh → k.index < f.graph.nextBlock)) ∧
      (∀ o ∈ f.opIds, o.index < f.graph.nextOp) ∧ f.opIds.Nodup)
    ⟨fun ⟨hb, ho, hn⟩ => ⟨fun k b hk => (hb k b hk).1, fun hd k b hk => (hb k b hk).2 hd, ho, hn⟩,
      fun h => ⟨fun k b hk => ⟨h.blockKey k b hk, fun hd => h.blockBound hd k b hk⟩, h.opBound,
        h.opOnce⟩⟩

theorem Function.Numbered.counted (h : f.Numbered) (fresh : Prop) : f.Counted fresh :=
  ⟨h.blockKey, fun _ => h.blockBound, h.opBound, h.opOnce⟩

/-- The numbers in a module tell its parts apart, and come from its counters. -/
structure Module.Numbered (m : Module) : Prop where
  functionKey : ∀ k f, m.function? k = some f → f.id = k
  functionBound : ∀ k f, m.function? k = some f → k.index < m.nextFunction
  globalKey : ∀ k g, m.globals.get? k = some g → g.id = k
  globalBound : ∀ k g, m.globals.get? k = some g → k.index < m.nextGlobal
  function : ∀ k f, m.function? k = some f → f.Numbered

/-- What stays the same while the body of a function is being changed. -/
structure Header where
  id : FuncId
  name : String
  signature : Signature
  attributes : Attributes
  kind : FunctionKind
  entry : BlockId

def Function.header (f : Function) : Header :=
  ⟨f.id, f.name, f.signature, f.attributes, f.kind, f.graph.entry⟩

/-- What is known beside a function while its body is being changed: what stays the same, whether
registers are defined once and come from a counter, whether blocks come from a counter, and from
where on numbers of operations are new. -/
structure Outline extends Header where
  once : Prop
  fresh : Prop
  floor : UInt32

def Function.outline (f : Function) (once fresh : Prop) : Outline :=
  ⟨f.header, once, fresh, f.graph.nextOp⟩

/-- The operations `ops` and the registers `regs` are out of place: they could be put into the
function, and its numbers would still tell its parts apart. -/
structure Function.Spare (f : Function) (head : Outline) (ops : List OpId) (regs : List Reg) :
    Prop where
  header : f.header = head.toHeader
  blockKey : ∀ k b, f.graph.block? k = some b → b.id = k
  blockBound : head.fresh → ∀ k b, f.graph.block? k = some b → k.index < f.graph.nextBlock
  opBound : ∀ o, 0 < f.opIds.count o + ops.count o → o.index < f.graph.nextOp
  defBound : head.once → ∀ r, 0 < f.defs.count r + regs.count r → r.index < f.nextReg
  opOnce : ∀ o, f.opIds.count o + ops.count o ≤ 1
  defOnce : head.once → ∀ r, f.defs.count r + regs.count r ≤ 1
  floor : head.floor ≤ f.graph.nextOp

theorem Function.Counted.spare {once fresh : Prop} (h : f.Counted fresh) (hn : once → f.Numbered) :
    f.Spare (f.outline once fresh) [] [] := by
  refine ⟨rfl, h.blockKey, h.blockBound, fun o ho => h.opBound o ?_,
    fun hd r hr => (hn hd).defBound r ?_, fun o => ?_, fun hd r => ?_, UInt32.le_refl _⟩
  · exact count_pos_iff.mp (by simpa using ho)
  · exact count_pos_iff.mp (by simpa using hr)
  · simpa using nodup_iff_count.mp h.opOnce o
  · simpa using nodup_iff_count.mp (hn hd).defOnce r

theorem Function.Spare.counted {head : Outline} {ops : List OpId} {regs : List Reg}
    (h : f.Spare head ops regs) : f.Counted head.fresh := by
  refine ⟨h.blockKey, h.blockBound, fun o ho => h.opBound o ?_, nodup_iff_count.mpr fun o => ?_⟩
  · have hpos := count_pos_iff.mpr ho
    omega
  · have hle := h.opOnce o
    omega

theorem Function.numbered_iff : f.Numbered ↔ f.Spare (f.outline True True) [] [] := by
  constructor
  · exact fun h => (h.counted True).spare fun _ => h
  · intro h
    have hc := h.counted
    refine ⟨hc.blockKey, h.blockBound trivial, hc.opBound, fun r hr => h.defBound trivial r ?_,
      hc.opOnce, nodup_iff_count.mpr fun r => ?_⟩
    · exact Nat.lt_of_lt_of_le (count_pos_iff.mpr hr) (Nat.le_add_right _ _)
    · simpa using h.defOnce trivial r

theorem Function.counted_iff {fresh : Prop} :
    f.Counted fresh ↔ f.Spare (f.outline False fresh) [] [] :=
  ⟨fun h => h.spare fun hf => hf.elim, fun h => h.counted⟩

namespace Function.Spare

variable {f g : Function} {head : Outline} {ops ops' : List OpId} {regs regs' : List Reg}

theorem of_count_le (h : f.Spare head ops regs)
    (hhead : g.header = f.header)
    (hkey : ∀ k b, g.graph.block? k = some b → b.id = k)
    (hbound : head.fresh → ∀ k b, g.graph.block? k = some b → k.index < g.graph.nextBlock)
    (hop : f.graph.nextOp = g.graph.nextOp) (hreg : f.nextReg = g.nextReg)
    (ho : ∀ o, g.opIds.count o + ops'.count o ≤ f.opIds.count o + ops.count o)
    (hr : ∀ r, g.defs.count r + regs'.count r ≤ f.defs.count r + regs.count r) :
    g.Spare head ops' regs' := by
  refine ⟨hhead.trans h.header, hkey, hbound, fun o hpos => ?_, fun hd r hpos => ?_, fun o => ?_,
    fun hd r => ?_, hop ▸ h.floor⟩
  · rw [← hop]
    exact h.opBound o (Nat.lt_of_lt_of_le hpos (ho o))
  · rw [← hreg]
    exact h.defBound hd r (Nat.lt_of_lt_of_le hpos (hr r))
  · exact Nat.le_trans (ho o) (h.opOnce o)
  · exact Nat.le_trans (hr r) (h.defOnce hd r)

theorem forget (h : f.Spare head ops regs) (ho : ∀ o, ops'.count o ≤ ops.count o)
    (hr : ∀ r, regs'.count r ≤ regs.count r) : f.Spare head ops' regs' :=
  h.of_count_le rfl h.blockKey h.blockBound rfl rfl (fun o => Nat.add_le_add_left (ho o) _)
    (fun r => Nat.add_le_add_left (hr r) _)

theorem takeNote (h : f.Spare head ops regs)
    (hr : head.once → ∀ r, regs'.count r ≤ regs.count r) : f.Spare head ops regs' := by
  have hle : head.once → ∀ r, f.defs.count r + regs'.count r ≤ f.defs.count r + regs.count r :=
    fun hd r => Nat.add_le_add_left (hr hd r) _
  exact ⟨h.header, h.blockKey, h.blockBound, h.opBound,
    fun hd r hpos => h.defBound hd r (Nat.lt_of_lt_of_le hpos (hle hd r)), h.opOnce,
    fun hd r => Nat.le_trans (hle hd r) (h.defOnce hd r), h.floor⟩

theorem rebase (h : f.Spare head ops regs) : f.Spare (f.outline head.once head.fresh) ops regs :=
  ⟨rfl, h.blockKey, h.blockBound, h.opBound, h.defBound, h.opOnce, h.defOnce, UInt32.le_refl _⟩

theorem since (h : f.Spare head ops regs)
    (hg : g.Spare (f.outline head.once head.fresh) ops' regs') :
    g.Spare head ops' regs' :=
  ⟨hg.header.trans h.header, hg.blockKey, hg.blockBound, hg.opBound, hg.defBound, hg.opOnce,
    hg.defOnce, UInt32.le_trans h.floor hg.floor⟩

theorem numbered (h : f.Spare head ops regs) (ho : head.once) (hb : head.fresh) :
    f.Numbered ∧ f.header = head.toHeader := by
  refine ⟨numbered_iff.mpr ?_, h.header⟩
  have hself : f.Spare (f.outline head.once head.fresh) [] [] :=
    h.rebase.forget (by simp) (by simp)
  rwa [eq_true ho, eq_true hb] at hself

end Function.Spare

theorem Block.opIds_eq (b : Block) :
    b.opIds = b.phis.map Operation.id ++ b.instructions.map Operation.id ++ [b.terminator.id] := by
  have hmap : ∀ {κ : Type} (l : List (Operation κ)) (p : Nat → Position),
      (l.mapIdx fun i o => (⟨p i, o.id, o.tags⟩ : Listed)).map Listed.op = l.map Operation.id := by
    intro κ l p
    induction l generalizing p with
    | nil => rfl
    | cons o l ih => simp [mapIdx_cons, ih fun i => p (i + 1)]
  simp [Block.opIds, Block.listed, hmap]

theorem Block.count_opIds (b : Block) (o : OpId) :
    b.opIds.count o = (b.phis.map Operation.id).count o +
      (b.instructions.map Operation.id).count o + [b.terminator.id].count o := by
  rw [Block.opIds_eq, count_append, count_append]

theorem Block.count_defs (b : Block) (r : Reg) :
    b.defs.count r = (b.phis.map fun p => p.kind.dest).count r +
      (b.instructions.filterMap fun o => o.kind.dest?).count r := by
  rw [Block.defs, count_append]

theorem count_map_take_drop {κ : Type} [DecidableEq β] (l : List κ) (c : κ → β) (i : Nat) (a : β) :
    ((l.take i).map c).count a + ((l.drop i).map c).count a = (l.map c).count a := by
  rw [← count_append, ← map_append, take_append_drop]

theorem count_filterMap_take_drop {κ : Type} [DecidableEq β] (l : List κ) (c : κ → Option β)
    (i : Nat) (a : β) :
    ((l.take i).filterMap c).count a + ((l.drop i).filterMap c).count a =
      (l.filterMap c).count a := by
  rw [← count_append, ← filterMap_append, take_append_drop]

namespace Function

variable {f g : Function} {head : Outline} {ops ops' : List OpId} {regs regs' : List Reg} {k : BlockId}
  {b t : BlockId} {c : Block → Block} {i : Nat} {o : Operation Instruction} {r : Reg}
  {source : Block} {tags : Tags} {tail : Option BlockId} {ty : Ty}

theorem count_opIds_modifyBlock {b : Block} (hb : f.graph.block? k = some b) (c : Block → Block)
    (o : OpId) :
    (f.modifyBlock k c).opIds.count o + b.opIds.count o =
      f.opIds.count o + (c b).opIds.count o :=
  Table.count_modify hb c Block.opIds o

theorem count_defs_modifyBlock {b : Block} (hb : f.graph.block? k = some b) (c : Block → Block)
    (r : Reg) :
    (f.modifyBlock k c).defs.count r + b.defs.count r = f.defs.count r + (c b).defs.count r := by
  have h := Table.count_modify hb c Block.defs r
  simp only [defs, modifyBlock, Graph.modifyBlock, Graph.blockList, count_append] at h ⊢
  omega

theorem modifyBlock_of_none (hb : f.graph.block? k = none) (c : Block → Block) :
    f.modifyBlock k c = f := by
  rw [modifyBlock, Graph.modifyBlock, Table.modify_of_none hb]

theorem block?_modifyBlock (k' : BlockId) (c : Block → Block) :
    (f.modifyBlock k c).graph.block? k' =
      if k' = k then (f.graph.block? k').map c else f.graph.block? k' :=
  Table.get?_modify f.graph.blocks k k' c

/-- A block is changed. What it gains was out of place, and what it loses is. -/
theorem Spare.modifyBlock (h : f.Spare head ops regs) (hid : ∀ b, (c b).id = b.id)
    (hnone : f.graph.block? k = none →
      (∀ o, ops'.count o ≤ ops.count o) ∧ ∀ r, regs'.count r ≤ regs.count r)
    (hsome : ∀ b, f.graph.block? k = some b →
      (∀ o, (c b).opIds.count o + ops'.count o ≤ b.opIds.count o + ops.count o) ∧
        ∀ r, (c b).defs.count r + regs'.count r ≤ b.defs.count r + regs.count r) :
    (f.modifyBlock k c).Spare head ops' regs' := by
  cases hb : f.graph.block? k with
  | none =>
    rw [modifyBlock_of_none hb]
    exact h.forget (hnone hb).1 (hnone hb).2
  | some b =>
    refine h.of_count_le rfl (fun k' b' hk' => ?_) (fun hd k' b' hk' => ?_) rfl rfl
      (fun o => ?_) (fun r => ?_)
    · rw [block?_modifyBlock] at hk'
      split at hk'
      · obtain ⟨b₀, hb₀, rfl⟩ := map_eq_some_iff.mp hk'
        rw [hid]
        exact h.blockKey k' b₀ hb₀
      · exact h.blockKey k' b' hk'
    · rw [block?_modifyBlock] at hk'
      split at hk'
      · obtain ⟨b₀, hb₀, -⟩ := map_eq_some_iff.mp hk'
        exact h.blockBound hd k' b₀ hb₀
      · exact h.blockBound hd k' b' hk'
    · have hc := count_opIds_modifyBlock hb c o
      have hle := (hsome b hb).1 o
      omega
    · have hc := count_defs_modifyBlock hb c r
      have hle := (hsome b hb).2 r
      omega

theorem Spare.unchanged (h : f.Spare head ops regs) (hid : ∀ b, (c b).id = b.id)
    (ho : ∀ b, (c b).opIds = b.opIds) (hd : ∀ b, (c b).defs = b.defs) :
    (f.modifyBlock k c).Spare head ops regs := by
  refine h.modifyBlock hid (fun _ => ⟨fun _ => Nat.le_refl _, fun _ => Nat.le_refl _⟩) ?_
  intro b _
  rw [ho, hd]
  exact ⟨fun _ => Nat.le_refl _, fun _ => Nat.le_refl _⟩

theorem Spare.mapBlocks (h : f.Spare head ops regs) {c : BlockId → Block → Block}
    (hid : ∀ k b, (c k b).id = b.id)
    (ho : ∀ k b, f.graph.block? k = some b → ∀ o, (c k b).opIds.count o ≤ b.opIds.count o)
    (hr : ∀ k b, f.graph.block? k = some b → ∀ r, (c k b).defs.count r ≤ b.defs.count r) :
    ({ f with graph := { f.graph with blocks := f.graph.blocks.mapWithKey c } } : Function).Spare
      head ops regs := by
  refine h.of_count_le rfl (fun k' b' hk' => ?_) (fun hd k' b' hk' => ?_) rfl rfl
    (fun o => ?_) (fun r => ?_)
  · simp only [Graph.block?, Table.get?_mapWithKey] at hk'
    obtain ⟨b₀, hb₀, rfl⟩ := map_eq_some_iff.mp hk'
    rw [hid]
    exact h.blockKey k' b₀ hb₀
  · simp only [Graph.block?, Table.get?_mapWithKey] at hk'
    obtain ⟨b₀, hb₀, -⟩ := map_eq_some_iff.mp hk'
    exact h.blockBound hd k' b₀ hb₀
  · refine Nat.add_le_add_right ?_ _
    exact Table.count_mapWithKey_le fun k b hb => ho k b hb o
  · refine Nat.add_le_add_right ?_ _
    simp only [defs, Graph.blockList, count_append]
    refine Nat.add_le_add_left ?_ _
    exact Table.count_mapWithKey_le fun k b hb => hr k b hb r

theorem Spare.mapPhis (h : f.Spare head ops regs) (l : List BlockId) {c : Phi → Phi}
    (hc : ∀ p, (c p).dest = p.dest) :
    ({ f with graph := f.graph.modifyBlocks l fun s => s.mapPhis c } : Function).Spare
      head ops regs := by
  refine h.mapBlocks (fun k s => ?_) (fun k s _ o => ?_) fun k s _ r => ?_
  · split <;> rfl
  · split <;> simp [Block.count_opIds, Block.mapPhis, Operation.map, Function.comp_def]
  · split <;> simp [Block.count_defs, Block.mapPhis, Operation.map, Function.comp_def, hc]

theorem freshReg_eq_ok (hf : f.freshReg = .ok (g, r)) :
    r = ⟨f.nextReg⟩ ∧ ∃ next : UInt32, next.toNat = f.nextReg.toNat + 1 ∧
      g = { f with nextReg := next } := by
  obtain ⟨next, hn, hg⟩ := bind_eq_ok.mp hf
  cases hg
  exact ⟨rfl, next, Counter.next_eq_ok hn, rfl⟩

theorem freshTyped_eq_ok (hf : f.freshTyped ty = .ok (g, r)) :
    r = ⟨f.nextReg⟩ ∧ ∃ next : UInt32, next.toNat = f.nextReg.toNat + 1 ∧
      g = { f with nextReg := next, regTypes := f.regTypes.insert r ty } := by
  obtain ⟨⟨f₁, r₁⟩, h₁, hg⟩ := bind_eq_ok.mp hf
  cases hg
  obtain ⟨rfl, next, hn, rfl⟩ := freshReg_eq_ok h₁
  exact ⟨rfl, next, hn, rfl⟩

theorem op_eq_ok {κ : Type} {kind : κ} {o : Operation κ} (hf : f.op kind tags = .ok (g, o)) :
    o = ⟨⟨f.graph.nextOp⟩, kind, tags⟩ ∧ ∃ next : UInt32,
      next.toNat = f.graph.nextOp.toNat + 1 ∧
      g = { f with graph := { f.graph with nextOp := next } } := by
  obtain ⟨⟨g₁, o₁⟩, h₁, hg⟩ := bind_eq_ok.mp hf
  cases hg
  obtain ⟨⟨g₂, id⟩, h₂, hg⟩ := bind_eq_ok.mp h₁
  cases hg
  obtain ⟨next, hn, hg⟩ := bind_eq_ok.mp h₂
  cases hg
  exact ⟨rfl, next, Counter.next_eq_ok hn, rfl⟩

theorem count_next {α : Type} [DecidableEq α] (index : α → UInt32) {l l' : List α} {a : α}
    {next : UInt32} (h : ∀ b, 0 < l.count b + l'.count b → index b < index a)
    (hnext : next.toNat = (index a).toNat + 1) (b : α) :
    (0 < l.count b + (a :: l').count b → index b < next) ∧
      (l.count b + l'.count b ≤ 1 → l.count b + (a :: l').count b ≤ 1) := by
  rw [UInt32.lt_iff_toNat_lt, hnext]
  by_cases he : b = a
  · subst he
    have hzero : l.count b + l'.count b = 0 :=
      Nat.eq_zero_of_not_pos fun hpos => UInt32.lt_irrefl _ (h b hpos)
    rw [count_cons_self]
    omega
  · rw [count_cons_of_ne (Ne.symm he)]
    exact ⟨fun hpos => Nat.lt_succ_of_lt (UInt32.lt_iff_toNat_lt.mp (h b hpos)), fun hle => hle⟩

theorem Spare.freshReg (h : f.Spare head ops regs) (hf : f.freshReg = .ok (g, r)) :
    g.Spare head ops (r :: regs) := by
  obtain ⟨rfl, next, hnext, rfl⟩ := freshReg_eq_ok hf
  have hnew := fun hd => count_next Reg.index (a := ⟨f.nextReg⟩) (h.defBound hd) hnext
  exact ⟨h.header, h.blockKey, h.blockBound, h.opBound, fun hd r => (hnew hd r).1, h.opOnce,
    fun hd r => (hnew hd r).2 (h.defOnce hd r), h.floor⟩

theorem Spare.freshTyped (h : f.Spare head ops regs) (hf : f.freshTyped ty = .ok (g, r)) :
    g.Spare head ops (r :: regs) := by
  obtain ⟨⟨f₁, r₁⟩, h₁, hg⟩ := bind_eq_ok.mp hf
  cases hg
  have hs := h.freshReg h₁
  exact ⟨hs.header, hs.blockKey, hs.blockBound, hs.opBound, hs.defBound, hs.opOnce, hs.defOnce,
    hs.floor⟩

theorem Spare.nextOp (h : f.Spare head ops regs) {next : UInt32}
    (hnext : next.toNat = f.graph.nextOp.toNat + 1) :
    ({ f with graph := { f.graph with nextOp := next } } : Function).Spare head
      (⟨f.graph.nextOp⟩ :: ops) regs := by
  have hnew := count_next OpId.index (a := ⟨f.graph.nextOp⟩) h.opBound hnext
  refine ⟨h.header, h.blockKey, h.blockBound, fun o => (hnew o).1, h.defBound,
    fun o => (hnew o).2 (h.opOnce o), h.defOnce, ?_⟩
  have hle := UInt32.le_iff_toNat_le.mp h.floor
  rw [UInt32.le_iff_toNat_le, hnext]
  omega

theorem Spare.op {κ : Type} (h : f.Spare head ops regs) {kind : κ} {o : Operation κ}
    (hf : f.op kind tags = .ok (g, o)) : g.Spare head (o.id :: ops) regs ∧ o.kind = kind := by
  obtain ⟨rfl, next, hnext, rfl⟩ := op_eq_ok hf
  exact ⟨h.nextOp hnext, rfl⟩

theorem Spare.not_block?_next (h : f.Spare head ops regs) (hd : head.fresh) :
    f.graph.block? ⟨f.graph.nextBlock⟩ = none := by
  refine eq_none_iff_forall_ne_some.mpr fun b hb => ?_
  exact UInt32.lt_irrefl _ (h.blockBound hd _ b hb)

theorem createBlock_eq_ok (hf : f.createBlock = .ok (g, b)) :
    b = ⟨f.graph.nextBlock⟩ ∧ ∃ nextBlock nextOp : UInt32,
      nextBlock.toNat = f.graph.nextBlock.toNat + 1 ∧ nextOp.toNat = f.graph.nextOp.toNat + 1 ∧
      g = { f with graph := { f.graph with
        nextBlock := nextBlock
        nextOp := nextOp
        blocks := f.graph.blocks.insert b (.fresh b ⟨f.graph.nextOp⟩) } } := by
  obtain ⟨⟨g₁, b₁⟩, h₁, hg⟩ := bind_eq_ok.mp hf
  cases hg
  obtain ⟨nextBlock, hb, h₂⟩ := bind_eq_ok.mp h₁
  obtain ⟨⟨g₂, term⟩, h₃, hg⟩ := bind_eq_ok.mp h₂
  cases hg
  obtain ⟨nextOp, ho, hg⟩ := bind_eq_ok.mp h₃
  cases hg
  exact ⟨rfl, nextBlock, nextOp, Counter.next_eq_ok hb, Counter.next_eq_ok ho, rfl⟩

theorem block?_createBlock (hf : f.createBlock = .ok (g, b)) (k : BlockId) :
    g.graph.block? k = if k = b then some (.fresh b ⟨f.graph.nextOp⟩) else f.graph.block? k := by
  obtain ⟨-, nextBlock, nextOp, -, -, rfl⟩ := createBlock_eq_ok hf
  exact Table.get?_insert f.graph.blocks b k _

theorem Spare.createBlock (h : f.Spare head ops regs) (hf : f.createBlock = .ok (g, b)) :
    g.Spare head ops regs ∧ (head.fresh → f.graph.block? b = none) := by
  have hb := h.not_block?_next
  obtain ⟨rfl, nextBlock, nextOp, hblock, hop, rfl⟩ := createBlock_eq_ok hf
  refine ⟨(h.nextOp hop).of_count_le rfl (fun k b' hk => ?_) (fun hd k b' hk => ?_) rfl rfl
    (fun o => ?_) (fun r => ?_), hb⟩
  · rw [block?_createBlock hf] at hk
    split at hk
    · next he =>
      cases hk
      exact he.symm
    · exact h.blockKey k b' hk
  · rw [UInt32.lt_iff_toNat_lt, hblock]
    rw [block?_createBlock hf] at hk
    split at hk
    · next he =>
      subst he
      exact Nat.lt_succ_self _
    · exact Nat.lt_succ_of_lt (UInt32.lt_iff_toNat_lt.mp (h.blockBound hd k b' hk))
  · have hc := Table.count_insert_le f.graph.blocks ⟨f.graph.nextBlock⟩
      (.fresh ⟨f.graph.nextBlock⟩ ⟨f.graph.nextOp⟩) Block.opIds o
    rw [← singleton_append, count_append, ← Nat.add_assoc]
    exact Nat.add_le_add_right hc _
  · have hc := Table.count_insert_le f.graph.blocks ⟨f.graph.nextBlock⟩
      (.fresh ⟨f.graph.nextBlock⟩ ⟨f.graph.nextOp⟩) Block.defs r
    simp only [defs, Graph.blockList, count_append, Block.defs, Block.fresh, map_nil,
      filterMap_nil, append_nil, count_nil, Nat.add_zero] at hc ⊢
    omega

/-- The function after a block `b` was cut before its instruction at `i`, where `tail` is a new
block and `branch` the branch to it. -/
def cut (f : Function) (b tail : BlockId) (i : Nat) (source : Block)
    (branch : Operation Terminator) : Function :=
  { f with graph :=
      (((f.graph.modifyBlock b fun s =>
          { s with instructions := s.instructions.take i, terminator := branch }).modifyBlock tail
        fun t =>
          { t with
            instructions := source.instructions.drop i
            terminator := source.terminator }).retargetPhis tail b tail) }

/-- Cutting a block does nothing, or makes a new block of what follows. -/
theorem splitBlock_cases (hf : f.splitBlock b i = .ok (g, tail)) :
    (tail = none ∧ g = f ∧ ∀ s, f.graph.block? b = some s → s.instructions.length < i) ∨
      ∃ source f₁ t f₂ branch, (f.graph.block? b).isSome = true ∧
      f.createBlock = .ok (f₁, t) ∧ f₁.op (Terminator.branch t) .empty = .ok (f₂, branch) ∧
      f₁.graph.block? b = some source ∧ i ≤ source.instructions.length ∧
      tail = some t ∧ g = f₂.cut b t i source branch := by
  obtain ⟨⟨g₁, tail₁⟩, h₁, hg⟩ := bind_eq_ok.mp hf
  cases hg
  unfold Graph.splitBlock at h₁
  split at h₁
  · next hs =>
    cases h₁
    exact .inl ⟨rfl, rfl, fun s hb => nomatch hs.symm.trans hb⟩
  · next block hs =>
    split at h₁
    · next hlt =>
      cases h₁
      refine .inl ⟨rfl, rfl, fun s hb => ?_⟩
      cases hs.symm.trans hb
      exact hlt
    · obtain ⟨⟨g₂, t⟩, h₂, h₁⟩ := bind_eq_ok.mp h₁
      obtain ⟨⟨g₃, branch⟩, h₃, h₁⟩ := bind_eq_ok.mp h₁
      have hc : f.createBlock = .ok ({ f with graph := g₂ }, t) := by
        rw [Function.createBlock, h₂]
        rfl
      have ho : ({ f with graph := g₂ } : Function).op (Terminator.branch t) .empty =
          .ok ({ f with graph := g₃ }, branch) := by
        rw [Function.op, h₃]
        rfl
      have hg₃ : g₃.block? b = g₂.block? b := by
        obtain ⟨-, next, -, hg⟩ := op_eq_ok ho
        rw [Function.mk.injEq] at hg
        rw [hg.2.2.2.1]
        rfl
      obtain ⟨source, hsource⟩ : ∃ source, g₂.block? b = some source := by
        have hb := block?_createBlock hc b
        dsimp only at hb
        rw [hs] at hb
        rw [hb]
        split <;> exact ⟨_, rfl⟩
      dsimp only at h₁
      rw [hg₃, hsource] at h₁
      dsimp only at h₁
      split at h₁
      · cases h₁
      · next hle =>
        cases h₁
        exact .inr ⟨source, _, t, _, branch, by rw [hs]; rfl, hc, ho, hsource,
          Nat.le_of_not_lt hle, rfl, rfl⟩

theorem splitBlock_eq_ok (h : f.Spare head ops regs) (hd : head.fresh)
    (hf : f.splitBlock b i = .ok (g, tail)) :
    (tail = none ∧ g = f) ∨ ∃ source f₁ t f₂ branch,
      f.graph.block? b = some source ∧ i ≤ source.instructions.length ∧
      f.createBlock = .ok (f₁, t) ∧ f₁.op (Terminator.branch t) .empty = .ok (f₂, branch) ∧
      tail = some t ∧ g = f₂.cut b t i source branch := by
  rcases splitBlock_cases hf with
    ⟨ht, hg, -⟩ | ⟨source, f₁, t, f₂, branch, hsome, hc, ho, hs, hle, ht, hg⟩
  · exact .inl ⟨ht, hg⟩
  · have hne : b ≠ t := by
      rintro rfl
      rw [(h.createBlock hc).2 hd] at hsome
      cases hsome
    have hb := block?_createBlock hc b
    rw [if_neg hne, hs] at hb
    exact .inr ⟨source, f₁, t, f₂, branch, hb.symm, hle, hc, ho, ht, hg⟩

theorem block?_retargetPhis (hs : f.graph.block? b = some source) (old new k : BlockId) :
    (f.graph.retargetPhis b old new).block? k = (f.graph.block? k).map fun s =>
      if source.successors.contains k then s.mapPhis fun p => p.retarget old new else s := by
  unfold Graph.retargetPhis
  rw [hs]
  simp only [Graph.block?, Graph.modifyBlocks, Table.get?_mapWithKey]

theorem block?_splitBlock (h : f.Spare head ops regs) (hd : head.fresh)
    (hf : f.splitBlock b i = .ok (g, some t)) :
    ∃ source branch, f.graph.block? b = some source ∧ i ≤ source.instructions.length ∧
      f.graph.block? t = none ∧ ∀ k, g.graph.block? k =
        (if k = b then some { source with
            instructions := source.instructions.take i
            terminator := ⟨branch, .branch t, .empty⟩ }
          else if k = t then some ⟨t, none, [], source.instructions.drop i, source.terminator⟩
          else f.graph.block? k).map fun s =>
            if source.successors.contains k then s.mapPhis fun p => p.retarget b t else s := by
  rcases splitBlock_eq_ok h hd hf with
    ⟨hn, -⟩ | ⟨source, f₁, t', f₂, branch, hb, hi, hc, ho, ht, rfl⟩
  · cases hn
  cases ht
  have hnone := (h.createBlock hc).2 hd
  have hne : b ≠ t := by
    rintro rfl
    rw [hnone] at hb
    cases hb
  have hblock : ∀ k, f₂.graph.block? k =
      if k = t then some (.fresh t ⟨f.graph.nextOp⟩) else f.graph.block? k := by
    obtain ⟨-, next, -, rfl⟩ := op_eq_ok ho
    exact block?_createBlock (g := f₁) hc
  have hbranch := (op_eq_ok ho).1
  subst hbranch
  refine ⟨source, ⟨f₁.graph.nextOp⟩, hb, hi, hnone, fun k => ?_⟩
  have htail : ((f₂.modifyBlock b fun s =>
      { s with
        instructions := s.instructions.take i
        terminator := ⟨⟨f₁.graph.nextOp⟩, Terminator.branch t, Tags.empty⟩ }).modifyBlock t fun s =>
      { s with
        instructions := source.instructions.drop i
        terminator := source.terminator }).graph.block? t =
      some ⟨t, none, [], source.instructions.drop i, source.terminator⟩ := by
    rw [block?_modifyBlock, if_pos rfl, block?_modifyBlock, if_neg (Ne.symm hne), hblock, if_pos rfl]
    rfl
  refine (block?_retargetPhis htail b t k).trans ?_
  congr 1
  rw [block?_modifyBlock, block?_modifyBlock, hblock]
  by_cases hkb : k = b
  · subst hkb
    rw [if_neg hne, if_pos rfl, if_neg hne, if_pos rfl, hb]
    rfl
  · by_cases hkt : k = t
    · subst hkt
      rw [if_pos rfl, if_neg hkb, if_pos rfl, if_neg hkb, if_pos rfl]
      rfl
    · rw [if_neg hkt, if_neg hkb, if_neg hkt, if_neg hkb, if_neg hkt]

theorem instructions_retargetPhis (g : Graph) (b old new k : BlockId) :
    ((g.retargetPhis b old new).block? k).map Block.instructions =
      (g.block? k).map Block.instructions := by
  unfold Graph.retargetPhis
  split
  · rfl
  · simp only [Graph.block?, Graph.modifyBlocks, Table.get?_mapWithKey, Option.map_map]
    congr 1
    funext s
    simp only [Function.comp_def]
    split <;> rfl

/-- What comes before the cut stays, also if the new block takes the place of an old one. -/
theorem splitBlock_first (hf : f.splitBlock b i = .ok (g, some t))
    (hb : f.graph.block? b = some source) :
    ∃ s, g.graph.block? b = some s ∧ s.instructions = source.instructions.take i := by
  rcases splitBlock_cases hf with
    ⟨hn, -⟩ | ⟨source', f₁, t', f₂, branch, -, hc, ho, hs, hi, ht, rfl⟩
  · cases hn
  cases ht
  have hnew := block?_createBlock hc b
  have hop : f₂.graph.block? b = some source' := by
    obtain ⟨-, next, -, rfl⟩ := op_eq_ok ho
    exact hs
  refine map_eq_some_iff.mp ((instructions_retargetPhis _ t b t b).trans ?_)
  simp only [Graph.block?, Graph.modifyBlock, Table.get?_modify, if_true] at hop ⊢
  rw [hop]
  by_cases hbt : b = t
  · rw [hs, if_pos hbt] at hnew
    cases hnew
    have hzero : i = 0 := Nat.le_zero.mp hi
    subst hzero
    rw [if_pos hbt]
    rfl
  · rw [hs, if_neg hbt, hb] at hnew
    cases hnew
    rw [if_neg hbt]
    rfl

theorem Spare.retargetPhis (h : f.Spare head ops regs) (b old new : BlockId) :
    ({ f with graph := f.graph.retargetPhis b old new } : Function).Spare head ops regs := by
  unfold Graph.retargetPhis
  split
  · exact h
  · exact h.mapPhis _ fun _ => rfl

theorem Spare.splitBlock (h : f.Spare head ops regs) {b : BlockId} {i : Nat} {tail : Option BlockId}
    (hf : f.splitBlock b i = .ok (g, tail)) : g.Spare head ops regs := by
  rcases splitBlock_cases hf with
    ⟨-, rfl, -⟩ | ⟨source, f₁, t, f₂, branch, -, hc, ho, hs, -, -, rfl⟩
  · exact h
  have h₂ := ((h.createBlock hc).1.op ho).1
  have hsb : f₂.graph.block? b = some source := by
    obtain ⟨-, next, -, rfl⟩ := op_eq_ok ho
    exact hs
  have h₃ : (f₂.modifyBlock b fun s =>
      { s with instructions := s.instructions.take i, terminator := branch }).Spare head
      ((source.instructions.drop i).map Operation.id ++ source.terminator.id :: ops)
      ((source.instructions.drop i).filterMap (fun o => o.kind.dest?) ++ regs) := by
    refine h₂.modifyBlock (fun _ => rfl) (fun hn => ?_) fun s hs' => ?_
    · rw [hsb] at hn
      cases hn
    · rw [hsb] at hs'
      cases hs'
      refine ⟨fun o => ?_, fun r => ?_⟩
      · have hc := count_map_take_drop source.instructions Operation.id i o
        simp only [Block.count_opIds, count_append, count_cons, count_nil]
        omega
      · have hc := count_filterMap_take_drop source.instructions (fun o => o.kind.dest?) i r
        simp only [Block.count_defs, count_append]
        omega
  refine Spare.retargetPhis (f := ((f₂.modifyBlock b _).modifyBlock t _)) ?_ t b t
  refine h₃.modifyBlock (fun _ => rfl) (fun hn => ⟨fun o => ?_, fun r => ?_⟩) fun s _ =>
    ⟨fun o => ?_, fun r => ?_⟩
  · simp only [count_append, count_cons]
    omega
  · simp only [count_append]
    omega
  · simp only [Block.count_opIds, count_append, count_cons, count_nil]
    omega
  · simp only [Block.count_defs, count_append]
    omega

/-- The shared block that must not be run is there already, or it is a new one. -/
theorem Spare.trapBlock (h : f.Spare head ops regs) (hf : f.trapBlock = .ok (g, b)) :
    g.Spare head ops regs := by
  unfold Function.trapBlock at hf
  dsimp only at hf
  split at hf
  · cases hf
    exact h
  · obtain ⟨⟨f₁, b₁⟩, h₁, hg⟩ := bind_eq_ok.mp hf
    cases hg
    have hs := (h.createBlock h₁).1.unchanged (k := b₁)
      (c := fun t => { t with label := some "unreachable" }) (fun _ => rfl) (fun _ => rfl)
      fun _ => rfl
    exact ⟨hs.header, hs.blockKey, hs.blockBound, hs.opBound, hs.defBound, hs.opOnce, hs.defOnce,
    hs.floor⟩

theorem Spare.removeBlock (h : f.Spare head ops regs) (b : BlockId) :
    (f.removeBlock b).Spare head ops regs := by
  unfold Function.removeBlock Graph.removeBlock
  split
  · exact ⟨h.header, h.blockKey, h.blockBound, h.opBound, h.defBound, h.opOnce, h.defOnce,
      h.floor⟩
  · next block _ =>
    have he : ({ f with
        trap := if f.trap = some b then none else f.trap
        graph := { f.graph with blocks := f.graph.blocks.erase b } } : Function).Spare head ops regs := by
      refine h.of_count_le rfl (fun k c hk => ?_) (fun hd k c hk => ?_) rfl rfl (fun o => ?_)
        fun r => ?_
      · simp only [Graph.block?, Table.get?_erase] at hk
        split at hk
        · cases hk
        · exact h.blockKey k c hk
      · simp only [Graph.block?, Table.get?_erase] at hk
        split at hk
        · cases hk
        · exact h.blockBound hd k c hk
      · exact Nat.add_le_add_right (Table.count_filter_le _ _ _ _) _
      · simp only [defs, Graph.blockList, count_append]
        have hc := Table.count_filter_le f.graph.blocks (fun k' _ => k' != b) Block.defs r
        simp only [Table.erase]
        omega
    exact he.mapPhis _ fun _ => rfl

theorem Spare.removeDeadBlocks (h : f.Spare head ops regs) : f.removeDeadBlocks.Spare head ops regs := by
  unfold Function.removeDeadBlocks
  induction f.deadBlocks generalizing f with
  | nil => exact h
  | cons b bs ih => exact ih (h.removeBlock b)

theorem mem_instructions :
    o ∈ f.instructions ↔ ∃ k b, f.graph.block? k = some b ∧ o ∈ b.instructions :=
  Table.mem_flatMap_values

theorem Counted.instruction_unique {fresh : Prop} (h : f.Counted fresh) {p : Operation Instruction}
    (ho : o ∈ f.instructions) (hp : p ∈ f.instructions) (hid : o.id = p.id) : o = p := by
  have hnodup : (f.instructions.map Operation.id).Nodup := by
    refine nodup_iff_count.mpr fun a => ?_
    refine Nat.le_trans ?_ (nodup_iff_count.mp h.opOnce a)
    rw [instructions, map_flatMap]
    refine Table.count_flatMap_le fun b _ => ?_
    rw [Block.count_opIds]
    omega
  exact inj_on_of_nodup_map hnodup ho hp hid

theorem positionOf_eq_inst {b : Block} {op : OpId} (h : b.positionOf op = some (.inst i)) :
    ∃ o, b.instructions[i]? = some o ∧ o.id = op := by
  obtain ⟨l, hl, hp⟩ := map_eq_some_iff.mp h
  have hop := find?_some hl
  have hm := mem_of_find?_eq_some hl
  simp only [Block.listed, mem_append, mem_mapIdx, mem_singleton] at hm
  rcases hm with (⟨j, hj, rfl⟩ | ⟨j, hj, rfl⟩) | rfl
  · cases hp
  · cases hp
    exact ⟨b.instructions[i], getElem?_eq_getElem hj, of_decide_eq_true hop⟩
  · cases hp

theorem Spare.locateInstruction (h : f.Spare head ops regs) {op : OpId}
    (hl : f.graph.locateInstruction op = some (k, i)) :
    ∃ b o, f.graph.block? k = some b ∧ b.instructions[i]? = some o ∧ o.id = op := by
  unfold Graph.locateInstruction at hl
  split at hl
  · next b i' hloc =>
    cases hl
    obtain ⟨s, hs, hp⟩ := exists_of_findSome?_eq_some hloc
    obtain ⟨k', hk'⟩ := Table.mem_values_iff.mp hs
    obtain ⟨p, hp, he⟩ := map_eq_some_iff.mp hp
    cases he
    obtain ⟨o, ho, hid⟩ := positionOf_eq_inst hp
    refine ⟨s, o, ?_, ho, hid⟩
    rw [h.blockKey k' s hk']
    exact hk'
  · cases hl

theorem Counted.exists_locateInstruction {fresh : Prop} (h : f.Counted fresh) (ho : o ∈ f.instructions) :
    ∃ k i, f.graph.locateInstruction o.id = some (k, i) := by
  obtain ⟨k, b, hb, ho⟩ := mem_instructions.mp ho
  obtain ⟨i, hi, rfl⟩ := mem_iff_getElem.mp ho
  have hmem : b ∈ f.graph.blockList := Table.mem_values_iff.mpr ⟨k, hb⟩
  have hlisted : (⟨.inst i, b.instructions[i].id, b.instructions[i].tags⟩ : Listed) ∈ b.listed := by
    rw [Block.listed, mem_append, mem_append]
    exact .inl (.inr (mem_mapIdx.mpr ⟨i, hi, rfl⟩))
  have hnodup : ((f.graph.blockList.flatMap Block.listed).map Listed.op).Nodup := by
    rw [map_flatMap]
    exact h.opOnce
  have hlocate : ∃ s p, f.graph.locate b.instructions[i].id = some (s, p) := by
    cases hl : f.graph.locate b.instructions[i].id with
    | some x => exact ⟨x.1, x.2, rfl⟩
    | none =>
      have hnone := findSome?_eq_none_iff.mp hl b hmem
      rw [map_eq_none_iff, Block.positionOf, map_eq_none_iff,
        find?_eq_none] at hnone
      exact absurd (decide_eq_true rfl) (hnone _ hlisted)
  obtain ⟨s, p, hlocate⟩ := hlocate
  obtain ⟨b', hb', hp⟩ := exists_of_findSome?_eq_some hlocate
  obtain ⟨p', hp, he⟩ := map_eq_some_iff.mp hp
  obtain ⟨x, hx, rfl⟩ := map_eq_some_iff.mp hp
  have hfound := find?_some hx
  have hop : x.op = b.instructions[i].id := of_decide_eq_true hfound
  have hsame : x = ⟨.inst i, b.instructions[i].id, b.instructions[i].tags⟩ :=
    inj_on_of_nodup_map hnodup
      (mem_flatMap.mpr ⟨b', hb', mem_of_find?_eq_some hx⟩)
      (mem_flatMap.mpr ⟨b, hmem, hlisted⟩) hop
  cases he
  rw [hsame] at hlocate
  exact ⟨b'.id, i, by rw [Graph.locateInstruction, hlocate]⟩

theorem Spare.remove (h : f.Spare head ops regs) {s : Block} (hs : f.graph.block? k = some s)
    (ho : s.instructions[i]? = some o)
    (hc : c s = { s with instructions := s.instructions.eraseIdx i }) (hid : ∀ b, (c b).id = b.id) :
    (f.modifyBlock k c).Spare head (o.id :: ops) (o.kind.dest?.toList ++ regs) := by
  refine h.modifyBlock hid (fun hn => ?_) fun s' hs' => ?_
  · rw [hs] at hn
    cases hn
  rw [hs] at hs'
  cases hs'
  obtain ⟨hi, hget⟩ := List.getElem?_eq_some_iff.mp ho
  have hsplit : s.instructions = s.instructions.take i ++ o :: s.instructions.drop (i + 1) := by
    rw [← hget, getElem_cons_drop, take_append_drop]
  rw [hc]
  refine ⟨fun a => ?_, fun r => ?_⟩
  · simp only [Block.count_opIds, eraseIdx_eq_take_drop_succ]
    conv => rhs; rw [hsplit]
    simp only [map_append, map_cons, count_append, count_cons]
    omega
  · simp only [Block.count_defs, eraseIdx_eq_take_drop_succ]
    conv => rhs; rw [hsplit]
    simp only [filterMap_append, filterMap_cons, count_append]
    cases o.kind.dest? <;>
      simp only [toList_none, toList_some, count_cons, count_nil] <;> omega

theorem mem_instructions_modifyBlock (ho : o ∈ f.instructions)
    (hc : ∀ b, f.graph.block? k = some b → o ∈ b.instructions → o ∈ (c b).instructions) :
    o ∈ (f.modifyBlock k c).instructions := by
  obtain ⟨k', b, hk', hb⟩ := mem_instructions.mp ho
  by_cases he : k' = k
  · subst he
    refine mem_instructions.mpr ⟨k', c b, ?_, hc b hk' hb⟩
    rw [block?_modifyBlock, if_pos rfl, hk']
    rfl
  · refine mem_instructions.mpr ⟨k', b, ?_, hb⟩
    rw [block?_modifyBlock, if_neg he, hk']

theorem mem_instructions_createBlock (h : f.Spare head ops regs) (hd : head.fresh)
    (hf : f.createBlock = .ok (g, b)) (ho : o ∈ f.instructions) : o ∈ g.instructions := by
  obtain ⟨k, s, hk, hs⟩ := mem_instructions.mp ho
  refine mem_instructions.mpr ⟨k, s, ?_, hs⟩
  rw [block?_createBlock hf, if_neg, hk]
  rintro rfl
  rw [(h.createBlock hf).2 hd] at hk
  cases hk

theorem mem_instructions_trapBlock (h : f.Spare head ops regs) (hd : head.fresh)
    (hf : f.trapBlock = .ok (g, b)) (ho : o ∈ f.instructions) : o ∈ g.instructions := by
  unfold Function.trapBlock at hf
  dsimp only at hf
  split at hf
  · cases hf
    exact ho
  · obtain ⟨⟨f₁, b₁⟩, h₁, hg⟩ := bind_eq_ok.mp hf
    cases hg
    exact mem_instructions_modifyBlock (f := f₁) (mem_instructions_createBlock h hd h₁ ho)
      fun _ _ ho => ho

theorem mem_instructions_splitBlock (h : f.Spare head ops regs) (hd : head.fresh)
    (hf : f.splitBlock b i = .ok (g, tail)) (ho : o ∈ f.instructions) : o ∈ g.instructions := by
  cases tail with
  | none =>
    rcases splitBlock_eq_ok h hd hf with ⟨-, rfl⟩ | ⟨_, _, _, _, _, _, _, _, _, ht, _⟩
    · exact ho
    · cases ht
  | some t =>
    obtain ⟨source, branch, hb, -, hnone, hblocks⟩ := block?_splitBlock h hd hf
    obtain ⟨k, s, hk, hs⟩ := mem_instructions.mp ho
    have hmem : ∀ k' s', (if k' = b then some { source with
            instructions := source.instructions.take i
            terminator := ⟨branch, .branch t, .empty⟩ }
          else if k' = t then some ⟨t, none, [], source.instructions.drop i, source.terminator⟩
          else f.graph.block? k') = some s' → o ∈ s'.instructions → o ∈ g.instructions := by
      intro k' s' he hs'
      refine mem_instructions.mpr ⟨k', _, (hblocks k').trans (congrArg _ he), ?_⟩
      dsimp only
      split <;> exact hs'
    by_cases hkb : k = b
    · subst hkb
      rw [hb] at hk
      cases hk
      rw [← take_append_drop i source.instructions, mem_append] at hs
      rcases hs with hs | hs
      · exact hmem k _ (if_pos rfl) hs
      · have hne : t ≠ k := by
          rintro rfl
          rw [hnone] at hb
          cases hb
        exact hmem t _ ((if_neg hne).trans (if_pos rfl)) hs
    · have hkt : k ≠ t := by
        rintro rfl
        rw [hnone] at hk
        cases hk
      exact hmem k s ((if_neg hkb).trans ((if_neg hkt).trans hk)) hs

end Function

namespace Module

variable {m n : Module} {f g : Function} {k : FuncId}

/-- Functions and global variables that are changed in their places, or go. -/
theorem Numbered.narrow (h : m.Numbered)
    (hf : ∀ k g, n.function? k = some g →
      ∃ f, m.function? k = some f ∧ g.Numbered ∧ g.id = f.id)
    (hg : ∀ k g, n.globals.get? k = some g → ∃ g', m.globals.get? k = some g' ∧ g.id = g'.id)
    (hnf : n.nextFunction = m.nextFunction) (hng : n.nextGlobal = m.nextGlobal) :
    n.Numbered := by
  refine ⟨fun k g hk => ?_, fun k g hk => ?_, fun k g hk => ?_, fun k g hk => ?_, fun k g hk => ?_⟩
  · obtain ⟨f, hm, -, hid⟩ := hf k g hk
    rw [hid]
    exact h.functionKey k f hm
  · obtain ⟨f, hm, -, -⟩ := hf k g hk
    rw [hnf]
    exact h.functionBound k f hm
  · obtain ⟨g', hm, hid⟩ := hg k g hk
    rw [hid]
    exact h.globalKey k g' hm
  · obtain ⟨g', hm, -⟩ := hg k g hk
    rw [hng]
    exact h.globalBound k g' hm
  · obtain ⟨f, -, hn, -⟩ := hf k g hk
    exact hn

theorem function?_setFunction (m : Module) (key k : FuncId) (g : Function) :
    (m.setFunction key g).function? k =
      if k = key then (m.function? k).map fun _ => g else m.function? k :=
  Table.get?_modify m.functions key k fun _ => g

theorem cases_of_setFunction {j : FuncId} {g' : Function} (hf : m.function? k = some f)
    (hj : (m.setFunction k g).function? j = some g') :
    j = k ∧ g' = g ∨ j ≠ k ∧ m.function? j = some g' := by
  rw [function?_setFunction] at hj
  split at hj
  · next he =>
    subst he
    rw [hf] at hj
    cases hj
    exact .inl ⟨rfl, rfl⟩
  · next he => exact .inr ⟨he, hj⟩

theorem function?_setFunction_self (hf : m.function? k = some f) :
    (m.setFunction k g).function? k = some g := by
  rw [function?_setFunction, if_pos rfl, hf]
  rfl

theorem keys_setFunction (m : Module) (k : FuncId) (g : Function) :
    (m.setFunction k g).functions.keys = m.functions.keys :=
  Table.keys_mapEntries (fun k' f => if k' = k then g else f) m.functions.entries

theorem ext_of_function? (hname : n.name = m.name) (hkeys : n.functions.keys = m.functions.keys)
    (hf : ∀ k, n.function? k = m.function? k) (hglobals : n.globals = m.globals)
    (hnf : n.nextFunction = m.nextFunction) (hng : n.nextGlobal = m.nextGlobal) : n = m := by
  have h : n.functions = m.functions := Table.ext_of_keys hkeys hf
  cases m
  cases n
  cases hname
  cases h
  cases hglobals
  cases hnf
  cases hng
  rfl

theorem setFunction_setFunction (m : Module) (k : FuncId) (f g : Function) :
    (m.setFunction k f).setFunction k g = m.setFunction k g := by
  refine ext_of_function? rfl (by simp only [keys_setFunction]) (fun j => ?_) rfl rfl rfl
  simp only [function?_setFunction]
  split
  · rw [Option.map_map]
    rfl
  · rfl

theorem setFunction_self (hf : m.function? k = some f) : m.setFunction k f = m := by
  refine ext_of_function? rfl (keys_setFunction m k f) (fun j => ?_) rfl rfl rfl
  rw [function?_setFunction]
  split
  · next he =>
    subst he
    rw [hf]
    rfl
  · rfl

theorem Numbered.setFunction (h : m.Numbered) {key : FuncId} (hf : m.function? key = some f)
    (hg : g.Numbered) (hid : g.id = f.id) : (m.setFunction key g).Numbered := by
  refine h.narrow (fun k g' hk => ?_) (fun k g' hk => ⟨g', hk, rfl⟩) rfl rfl
  rcases cases_of_setFunction hf hk with ⟨rfl, rfl⟩ | ⟨-, hk⟩
  · exact ⟨f, hf, hg, hid⟩
  · exact ⟨g', hk, h.function k g' hk, rfl⟩

theorem Numbered.mapFunctions (h : m.Numbered) {c : Function → Function}
    (hc : ∀ f, f.Numbered → (c f).Numbered ∧ (c f).id = f.id) :
    ({ m with functions := m.functions.map c } : Module).Numbered := by
  refine h.narrow (fun k g hk => ?_) (fun k g hk => ⟨g, hk, rfl⟩) rfl rfl
  simp only [function?, Table.get?_map] at hk
  obtain ⟨f, hf, rfl⟩ := map_eq_some_iff.mp hk
  exact ⟨f, hf, hc f (h.function k f hf)⟩

theorem Numbered.filter (h : m.Numbered) (p : FuncId → Function → Bool)
    (q : GlobalId → Global → Bool) :
    ({ m with
      functions := m.functions.filter p
      globals := m.globals.filter q } : Module).Numbered := by
  refine h.narrow (fun k g hk => ?_) (fun k g hk => ?_) rfl rfl
  · simp only [function?, Table.get?_filter] at hk
    have hs := (filter_eq_some_iff.mp hk).1
    exact ⟨g, hs, h.function k g hs, rfl⟩
  · simp only [Table.get?_filter] at hk
    exact ⟨g, (filter_eq_some_iff.mp hk).1, rfl⟩

end Module

end SiteFusion
