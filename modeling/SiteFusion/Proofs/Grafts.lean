import SiteFusion.Proofs.CopiedBlocks
import SiteFusion.Proofs.Scopes

namespace SiteFusion

open List Option

open Inline

namespace Code

/-- A block that must not be run, and does nothing. -/
def dead : Code := ⟨[], [], .unreachable⟩

def retarget (c : Code) (old new : BlockId) : Code :=
  { c with phis := c.phis.map fun q => q.retarget old new }

def allocas (c : Code) : List Instruction := c.body.filter Instruction.isAlloca

def withoutAllocas (c : Code) : Code := { c with body := c.body.filter fun i => !i.isAlloca }

/-- More allocations after those that a block starts with. -/
def hoist (c : Code) (l : List Instruction) : Code :=
  { c with body := c.body.takeWhile Instruction.isAlloca ++ l ++ c.body.dropWhile Instruction.isAlloca }

end Code

/-- A copy of a block, where control goes on in `tail` instead of returning. -/
def Inline.Mapping.code (n : Mapping) (tail : BlockId) (c : Code) : Code :=
  ⟨c.phis.map n.phi, c.body.map n.instruction, copyTerminator n tail c.exit⟩

/-- How the result of a call is defined in the block after it: there is no more to define if control
does not come there, and a choice to make if it comes there from several blocks. -/
def Inline.binding (returns : List (BlockId × Operand)) (ty : Ty) :
    Option Reg → List Phi × List Instruction
  | none => ([], [])
  | some d => match returns with
    | [] => ([], [.const d .undefined])
    | [(_, v)] => ([], [.copy d v])
    | returns => ([⟨d, returns, ty⟩], [])

def Proc.allocas (p : Proc) : List Instruction := ((p.code p.entry).map Code.allocas).getD []

def Proc.Defines (p : Proc) (r : Reg) : Prop := ∃ k c, p.code k = some c ∧ r ∈ c.defs

/-- A call in a block, and what is put in its place. -/
structure Graft where
  block : BlockId
  phis : List Phi
  before : List Instruction
  dest : Option Reg
  callee : FuncId
  args : List Operand
  after : List Instruction
  exit : Terminator
  names : Mapping
  tail : BlockId
  result : Ty
  /-- The copied blocks that would return, with the values they would return. -/
  returns : List (BlockId × Operand)
  ty : Ty

namespace Graft

def binding (G : Graft) : List Phi × List Instruction := Inline.binding G.returns G.ty G.dest

/-- The allocations of the callee are with those of the caller. -/
def hoist (G : Graft) (p q : Proc) (k : BlockId) (c : Code) : Code :=
  if k = p.entry then c.hoist (q.allocas.map G.names.instruction) else c

/-- The code `p'` is `p` with `q` in the place of a call. -/
structure Joins (G : Graft) (p q p' : Proc) : Prop where
  params : p'.params = p.params
  varargs : p'.varargs = p.varargs
  entry : p'.entry = p.entry
  call : p.code G.block =
    some ⟨G.phis, G.before ++ .call G.dest G.callee G.args :: G.after, G.exit⟩
  head : p'.code G.block = some (G.hoist p q G.block
    ⟨G.phis.map fun q => q.retarget G.block G.tail, G.before, .branch (G.names.label q.entry)⟩)
  tail : p'.code G.tail = some ⟨G.binding.1, G.binding.2 ++ G.after, G.exit⟩
  old : ∀ {k c}, k ≠ G.block → p.code k = some c →
    p'.code k = some (G.hoist p q k (c.retarget G.block G.tail))
  copy : ∀ {k c}, q.code k = some c → p'.code (G.names.label k) =
    some (G.names.code G.tail (if k = q.entry then c.withoutAllocas else c))
  cover : ∀ {k}, (p'.code k).isSome → (p.code k).isSome ∨ k = G.tail ∨
    ∃ k₀, (q.code k₀).isSome ∧ G.names.label k₀ = k
  tail_new : p.code G.tail = none
  label_ne_tail : ∀ {k}, (q.code k).isSome → G.names.label k ≠ G.tail
  label_ne_entry : ∀ {k}, (q.code k).isSome → G.names.label k ≠ p.entry
  label_new : ∀ {k c}, q.code k = some c → p.code (G.names.label k) = none ∨
    c = .dead ∧ p.code (G.names.label k) = some .dead
  label_inj : ∀ {k k'}, (q.code k).isSome → (q.code k').isSome →
    G.names.label k = G.names.label k' → k = k'
  returns : ∀ {k v}, (k, v) ∈ G.returns ↔ ∃ k₀ c, q.code k₀ = some c ∧ G.names.label k₀ = k ∧
    returned? G.names G.result c.exit = some v
  returns_once : (G.returns.map Prod.fst).Nodup
  args : List.Forall₂ (fun r o => G.names.operand (.reg r) = o) q.params G.args
  reg_new : ∀ {r}, q.Defines r → G.names.operand (.reg r) = .reg (G.names.reg r) ∧
    G.names.reg r ∉ p.params ∧ ¬ p.Defines (G.names.reg r)
  reg_inj : ∀ {r r'}, q.Defines r → q.Defines r' → G.names.reg r = G.names.reg r' → r = r'

end Graft

theorem Block.isTrap_iff {b : Block} : b.isTrap = true ↔ b.code = .dead := by
  simp [isTrap, code, Code.dead, List.isEmpty_iff, and_assoc]

theorem Block.code_withAllocas (l : List (Operation Instruction)) (b : Block) :
    (withAllocas l b).code = b.code.hoist (l.map Operation.kind) := by
  have htake : b.instructions.take b.allocaCount =
      b.instructions.takeWhile fun o => o.kind.isAlloca := by
    conv_lhs => rw [← takeWhile_append_dropWhile (p := fun o => o.kind.isAlloca)
      (l := b.instructions)]
    exact take_left
  have hdrop : b.instructions.drop b.allocaCount =
      b.instructions.dropWhile fun o => o.kind.isAlloca := by
    conv_lhs => rw [← takeWhile_append_dropWhile (p := fun o => o.kind.isAlloca)
      (l := b.instructions)]
    exact drop_left
  simp only [withAllocas, code, Code.hoist, htake, hdrop, map_append, takeWhile_map,
    dropWhile_map]
  rfl

theorem Block.code_withoutAllocas (b : Block) :
    (Inline.withoutAllocas b).code = b.code.withoutAllocas := by
  simp only [Inline.withoutAllocas, code, Code.withoutAllocas, List.filter_map]
  rfl

namespace Function

variable {f g : Function} {k : BlockId}

theorem code_eq (f : Function) (k : BlockId) : f.proc.code k = (f.graph.block? k).map Block.code :=
  rfl

theorem code_modifyBlock (k' : BlockId) (φ : Block → Block) :
    (f.modifyBlock k φ).proc.code k' =
      if k' = k then (f.graph.block? k').map fun b => (φ b).code else f.proc.code k' := by
  simp only [proc, block?_modifyBlock]
  split
  · rw [Option.map_map]
    rfl
  · rfl

theorem Ticks.code (h : f.Ticks g) (k : BlockId) : g.proc.code k = f.proc.code k := by
  simp only [proc, h.block? k]

/-- A recorded trap block is intact, and not the entry block. -/
def Trapped (f : Function) : Prop :=
  ∀ t, f.trap = some t → t ≠ f.graph.entry ∧ f.proc.code t = some .dead

end Function

namespace Inline

variable {f g callee : Function} {n : Mapping} {b : Block} {call : Call} {copied ops : List OpId}
  {d : Copied} {head : Outline} {i : Nat} {inlined : Inlined} {k tail : BlockId} {l : List BlockId}
  {o : Operation Instruction} {os : List Operand} {ps : List Param} {r : Reg} {regs : List Reg}
  {result : Ty} {returns : List (BlockId × Operand)} {t t' : Table BlockId BlockId}
  {trap : Option BlockId}

theorem isAlloca_instruction (i : Instruction) : (n.instruction i).isAlloca = i.isAlloca := by
  cases i <;> rfl

theorem Mapping.code_withoutAllocas (tail : BlockId) (c : Code) :
    (n.code tail c).withoutAllocas = n.code tail c.withoutAllocas := by
  simp only [code, Code.withoutAllocas, List.filter_map, Function.comp_def, isAlloca_instruction]

theorem Mapping.allocas_code (tail : BlockId) (c : Code) :
    (n.code tail c).allocas = c.allocas.map n.instruction := by
  simp only [code, Code.allocas, List.filter_map, Function.comp_def, isAlloca_instruction]

theorem Cloned.code {c : Block} (h : Cloned n tail copied c b) : b.code = n.code tail c.code := by
  have hmap : ∀ {κ : Type} {φ : κ → κ} {l l' : List (Operation κ)},
      List.Forall₂ (IsCopy φ copied) l l' →
      l'.map Operation.kind = (l.map Operation.kind).map φ := by
    intro κ φ l l' hl
    induction hl with
    | nil => rfl
    | cons hab _ ih => rw [map_cons, map_cons, map_cons, hab.1, ih]
  simp only [Block.code, Mapping.code, hmap h.phis, hmap h.instructions, h.terminator.1]

theorem retarget_of_not_mem {q : Phi} {x y : BlockId} (h : x ∉ q.incoming.map Prod.fst) :
    q.retarget x y = q := by
  have hmap : (q.incoming.map fun e => (if e.1 = x then y else e.1, e.2)) = q.incoming := by
    refine (map_congr_left fun e he => ?_).trans (List.map_id _)
    have hne : e.1 ≠ x := fun hx => h (hx ▸ List.mem_map_of_mem he)
    rw [if_neg hne]
    rfl
  rw [Phi.retarget, hmap]

theorem code_mapPhis (s : Block) (x y : BlockId) :
    (s.mapPhis fun q => q.retarget x y).code = s.code.retarget x y := by
  simp only [Block.mapPhis, Block.code, Code.retarget, List.map_map]
  rfl

theorem code_cut (hf : f.Numbered) (hcon : f.proc.Connected)
    (hb : f.graph.block? call.block = some b)
    (hg : f.splitBlock call.block (call.index + 1) = .ok (g, some tail)) :
    f.proc.code tail = none ∧ ∀ k, (g.modifyBlock call.block fun b =>
        { b with instructions := b.instructions.take call.index }).proc.code k =
      if k = call.block then some ⟨b.code.phis.map fun q => q.retarget call.block tail,
        b.code.body.take call.index, .branch tail⟩
      else if k = tail then some ⟨[], b.code.body.drop (call.index + 1), b.code.exit⟩
      else (f.proc.code k).map fun c => c.retarget call.block tail := by
  obtain ⟨source, branch, hb', -, hnone, hblocks⟩ :=
    Function.block?_splitBlock (Function.numbered_iff.mp hf) trivial hg
  cases hb.symm.trans hb'
  have hcode : f.proc.code call.block = some b.code := Function.code_eq_some.mpr ⟨b, hb, rfl⟩
  have htail : f.proc.code tail = none := map_eq_none_iff.mpr hnone
  have hne : tail ≠ call.block := by
    rintro rfl
    rw [hcode] at htail
    cases htail
  have hturn : ∀ k (s : Block), (∀ c, f.proc.code k = some c → s.code.phis = c.phis) →
      (f.proc.code k = none → s.code.phis = []) →
      (if b.successors.contains k then s.mapPhis fun q => q.retarget call.block tail else s).code =
        s.code.retarget call.block tail := by
    intro k s hsome hnone
    split
    · exact code_mapPhis s _ _
    · next hk =>
      suffices h : (s.code.phis.map fun q => q.retarget call.block tail) = s.code.phis by
        rw [Code.retarget, h]
      refine (map_congr_left fun q hq => retarget_of_not_mem fun hx => hk ?_).trans
        (List.map_id _)
      cases hc : f.proc.code k with
      | none =>
        rw [hnone hc] at hq
        cases hq
      | some c =>
        obtain ⟨c', hc', hs⟩ := (hcon.source hc q (hsome c hc ▸ hq) call.block).mp hx
        cases hcode.symm.trans hc'
        exact contains_iff_mem.mpr hs
  refine ⟨htail, fun k => ?_⟩
  rw [Function.code_modifyBlock]
  by_cases hk : k = call.block
  · subst hk
    rw [if_pos rfl, if_pos rfl, hblocks, if_pos rfl, map_some, map_some]
    have hfirst := hturn call.block { b with
      instructions := b.instructions.take call.index
      terminator := ⟨branch, .branch tail, .empty⟩ } (fun c hc => ?_) fun hc => ?_
    · refine congrArg some (Eq.trans ?_ (hfirst.trans ?_))
      · split
        · simp only [Block.mapPhis, take_take, Nat.min_eq_left (Nat.le_succ _)]
        · simp only [take_take, Nat.min_eq_left (Nat.le_succ _)]
      · simp only [Block.code, Code.retarget, map_take]
    · cases hcode.symm.trans hc
      rfl
    · rw [hcode] at hc
      cases hc
  · rw [if_neg hk, if_neg hk, Function.code_eq, hblocks, if_neg hk]
    by_cases hkt : k = tail
    · subst hkt
      rw [if_pos rfl, if_pos rfl, map_some, map_some,
        hturn k _ (fun c hc => by cases htail.symm.trans hc) fun _ => rfl]
      simp only [Block.code, Code.retarget, map_drop, map_nil]
    · rw [if_neg hkt, if_neg hkt, Option.map_map, Function.code_eq, Option.map_map]
      refine Option.map_congr fun s hs => ?_
      have hc : f.proc.code k = some s.code := Function.code_eq_some.mpr ⟨s, hs, rfl⟩
      exact hturn k s (fun c hc' => by cases hc.symm.trans hc'; rfl) fun hc' => by
        cases hc.symm.trans hc'

theorem trapBlock_cases {b : BlockId} (hf : f.trapBlock = .ok (g, b)) :
    (g = f ∧ f.trap = some b ∧ f.proc.code b = some .dead) ∨
      (∃ h, f.createBlock = .ok (h, b)) ∧ g.trap = some b ∧ g.graph.entry = f.graph.entry ∧
        ∀ k, g.proc.code k = if k = b then some .dead else f.proc.code k := by
  unfold Function.trapBlock at hf
  dsimp only at hf
  split at hf
  · next b' htrap =>
    cases hf
    obtain ⟨htrap, hdead⟩ := filter_eq_some_iff.mp htrap
    refine .inl ⟨rfl, htrap, ?_⟩
    rw [Function.code_eq]
    cases hb : f.graph.block? b with
    | none => simp [hb] at hdead
    | some s =>
      rw [hb] at hdead
      exact congrArg some (Block.isTrap_iff.mp hdead)
  · obtain ⟨⟨h, b'⟩, h₁, hg⟩ := bind_eq_ok.mp hf
    cases hg
    refine .inr ⟨⟨h, h₁⟩, rfl, ?_, fun k => ?_⟩
    · obtain ⟨-, -, -, -, -, rfl⟩ := Function.createBlock_eq_ok h₁
      rfl
    · refine (Function.code_modifyBlock (f := h) k
        fun t => { t with label := some "unreachable" }).trans ?_
      rw [Function.block?_createBlock h₁, Function.code_eq h, Function.block?_createBlock h₁]
      split <;> rfl

/-- Blocks of the callee have blocks of the caller for their copies, all of them new, but for the
trap block. -/
structure Places (trap : Option BlockId) (l : List BlockId) (f g : Function)
    (t : Table BlockId BlockId) : Prop where
  keeps : ∀ {k c}, f.proc.code k = some c → g.proc.code k = some c
  place : ∀ k ∈ l, ∃ k', t.get? k = some k' ∧ g.proc.code k' = some .dead ∧
    (f.proc.code k' = none ∨ some k = trap ∧ f.trap = some k' ∧ f.proc.code k' = some .dead)
  inj : ∀ k₁ ∈ l, ∀ k₂ ∈ l, t.get? k₁ = t.get? k₂ → k₁ = k₂
  cover : ∀ {k}, (g.proc.code k).isSome → (f.proc.code k).isSome ∨ ∃ k₀ ∈ l, t.get? k₀ = some k
  trap : g.trap = f.trap ∨ ∃ k ∈ l, some k = trap ∧ g.trap = t.get? k

theorem renameBlocks_cons {b : BlockId} (hg : renameBlocks trap (b :: l) f t = .ok (g, t')) :
    ∃ f₁ new, (if some b = trap then f.trapBlock else f.createBlock) = .ok (f₁, new) ∧
      renameBlocks trap l f₁ (t.insert b new) = .ok (g, t') := by
  unfold renameBlocks at hg
  split at hg
  · next hb =>
    obtain ⟨⟨f₁, new⟩, h₁, hg⟩ := bind_eq_ok.mp hg
    exact ⟨f₁, new, by rw [if_pos hb, h₁], hg⟩
  · next hb =>
    obtain ⟨⟨f₁, new⟩, h₁, hg⟩ := bind_eq_ok.mp hg
    exact ⟨f₁, new, by rw [if_neg hb, h₁], hg⟩

theorem renameBlocks_keeps (hg : renameBlocks trap l f t = .ok (g, t')) (hk : k ∉ l) :
    t'.get? k = t.get? k := by
  induction l generalizing f t with
  | nil =>
    cases hg
    rfl
  | cons b l ih =>
    obtain ⟨hb, hl⟩ := ne_and_not_mem_of_not_mem_cons hk
    obtain ⟨f₁, new, -, hg⟩ := renameBlocks_cons hg
    rw [ih hg hl, Table.get?_insert, if_neg hb]

theorem code_place {b new : BlockId} (h : f.Spare head ops regs) (hd : head.fresh)
    (hf : (if some b = trap then f.trapBlock else f.createBlock) = .ok (g, new)) :
    g.Spare head ops regs ∧ (∀ k, g.proc.code k = if k = new then some .dead else f.proc.code k) ∧
      (f.proc.code new = none ∨ some b = trap ∧ f.trap = some new ∧ f.proc.code new = some .dead) ∧
      (g.trap = f.trap ∨ some b = trap ∧ g.trap = some new) := by
  split at hf
  · next hb =>
    refine ⟨h.trapBlock hf, ?_⟩
    rcases trapBlock_cases hf with ⟨rfl, htrap, hdead⟩ | ⟨⟨f₁, h₁⟩, htrap, -, hcode⟩
    · refine ⟨fun k => ?_, .inr ⟨hb, htrap, hdead⟩, .inl rfl⟩
      split
      · next hk => rw [hk, hdead]
      · rfl
    · exact ⟨hcode, .inl (map_eq_none_iff.mpr ((h.createBlock h₁).2 hd)), .inr ⟨hb, htrap⟩⟩
  · obtain ⟨hs, hnone⟩ := h.createBlock hf
    refine ⟨hs, fun k => ?_, .inl (map_eq_none_iff.mpr (hnone hd)), .inl ?_⟩
    · rw [Function.code_eq, Function.block?_createBlock hf]
      split <;> rfl
    · obtain ⟨-, -, -, -, -, rfl⟩ := Function.createBlock_eq_ok hf
      rfl

theorem renameBlocks_places (h : f.Spare head ops regs) (hd : head.fresh)
    (ht : ∀ k, f.trap = some k → (f.proc.code k).isSome) (hl : l.Nodup)
    (hg : renameBlocks trap l f t = .ok (g, t')) : Places trap l f g t' := by
  induction l generalizing f t with
  | nil =>
    cases hg
    exact ⟨fun h => h, by simp, by simp, fun h => .inl h, .inl rfl⟩
  | cons b l ih =>
    obtain ⟨hb, hl⟩ := nodup_cons.mp hl
    obtain ⟨f₁, new, h₁, hg⟩ := renameBlocks_cons hg
    obtain ⟨hs, hcode, hnew, htrap⟩ := code_place h hd h₁
    have hdead : f₁.proc.code new = some .dead := by rw [hcode, if_pos rfl]
    have hkeep : ∀ {k c}, f.proc.code k = some c → f₁.proc.code k = some c := by
      intro k c hc
      rw [hcode]
      split
      · next hk =>
        rcases hnew with hn | ⟨-, -, hn⟩
        · rw [hk, hn] at hc
          cases hc
        · rw [← hn, ← hk, hc]
      · exact hc
    have ht₁ : ∀ k, f₁.trap = some k → (f₁.proc.code k).isSome := by
      intro k hk
      rcases htrap with he | ⟨-, he⟩
      · obtain ⟨c, hc⟩ := isSome_iff_exists.mp (ht k (he ▸ hk))
        rw [hkeep hc]
        rfl
      · cases he.symm.trans hk
        rw [hdead]
        rfl
    have hp := ih hs ht₁ hl hg
    have hget : t'.get? b = some new := by
      rw [renameBlocks_keeps hg hb, Table.get?_insert, if_pos rfl]
    have hrest : ∀ k ∈ l, ∃ k', t'.get? k = some k' ∧ k' ≠ new ∧ g.proc.code k' = some .dead ∧
        (f.proc.code k' = none ∨ some k = trap ∧ f.trap = some k' ∧ f.proc.code k' = some .dead) := by
      intro k hk
      obtain ⟨k', hk', hg', hcase⟩ := hp.place k hk
      have hne : k' ≠ new := by
        rintro rfl
        rcases hcase with hn | ⟨hkt, htr, -⟩
        · rw [hdead] at hn
          cases hn
        · have hbt : some b ≠ trap := fun h => hb ((Option.some.inj (h.trans hkt.symm)) ▸ hk)
          have hsome := ht k' ((htrap.resolve_right fun h => hbt h.1) ▸ htr)
          rw [hnew.resolve_right fun h => hbt h.1] at hsome
          cases hsome
      refine ⟨k', hk', hne, hg', ?_⟩
      rw [hcode, if_neg hne] at hcase
      refine hcase.imp_right ?_
      rintro ⟨hkt, htr, hd⟩
      refine ⟨hkt, ?_, hd⟩
      have hbt : some b ≠ trap := fun h => hb ((Option.some.inj (h.trans hkt.symm)) ▸ hk)
      exact (htrap.resolve_right fun h => hbt h.1) ▸ htr
    constructor
    case keeps => exact fun hc => hp.keeps (hkeep hc)
    case place =>
      intro k hk
      rcases mem_cons.mp hk with rfl | hk
      · exact ⟨new, hget, hp.keeps hdead, hnew⟩
      · obtain ⟨k', hk', -, hrest⟩ := hrest k hk
        exact ⟨k', hk', hrest⟩
    case inj =>
      intro k₁ hk₁ k₂ hk₂ he
      rcases mem_cons.mp hk₁ with rfl | hl₁ <;> rcases mem_cons.mp hk₂ with rfl | hl₂
      · rfl
      · obtain ⟨k', hk', hne, -⟩ := hrest k₂ hl₂
        rw [hget, hk'] at he
        exact absurd (Option.some.inj he).symm hne
      · obtain ⟨k', hk', hne, -⟩ := hrest k₁ hl₁
        rw [hget, hk'] at he
        exact absurd (Option.some.inj he) hne
      · exact hp.inj k₁ hl₁ k₂ hl₂ he
    case cover =>
      intro k hk
      rcases hp.cover hk with hk | ⟨k₀, hk₀, he⟩
      · rw [hcode] at hk
        split at hk
        · next he =>
          rw [he]
          exact .inr ⟨b, mem_cons_self, hget⟩
        · exact .inl hk
      · exact .inr ⟨k₀, mem_cons_of_mem _ hk₀, he⟩
    case trap =>
      rcases hp.trap with he | ⟨k, hk, hkt, he⟩
      · rcases htrap with hb | ⟨hbt, hb⟩
        · exact .inl (he.trans hb)
        · exact .inr ⟨b, mem_cons_self, hbt, he.trans (hb.trans hget.symm)⟩
      · exact .inr ⟨k, mem_cons_of_mem _ hk, hkt, he⟩

theorem copyBlocks_returns {l : List (BlockId × Block)}
    (hg : copyBlocks n result tail trap l f = .ok (g, d)) :
    d.returns = (l.filter fun e => some e.1 ≠ trap).filterMap fun e =>
      (returned? n result e.2.terminator.kind).map fun v => (n.label e.1, v) := by
  induction l generalizing f d with
  | nil =>
    cases hg
    rfl
  | cons e l ih =>
    obtain ⟨key, c⟩ := e
    unfold copyBlocks at hg
    split at hg
    · next ht =>
      rw [ih hg, filter_cons_of_neg (by simpa using ht)]
    · next ht =>
      obtain ⟨⟨f₁, d₁⟩, h₁, hg⟩ := bind_eq_ok.mp hg
      obtain ⟨⟨f₂, d₂⟩, h₂, hg⟩ := bind_eq_ok.mp hg
      cases hg
      obtain ⟨⟨f₃, phis⟩, -, h₁⟩ := bind_eq_ok.mp h₁
      obtain ⟨⟨f₄, insts⟩, -, h₁⟩ := bind_eq_ok.mp h₁
      obtain ⟨⟨f₅, term⟩, -, h₁⟩ := bind_eq_ok.mp h₁
      cases h₁
      rw [filter_cons_of_pos (by simpa using ht), filterMap_cons, ← ih h₂]
      cases returned? n result c.terminator.kind <;> rfl

theorem code_copies (h : Copies n tail trap callee.graph.blocks.entries f g copied)
    (hinj : ∀ {k k'}, (callee.proc.code k).isSome → (callee.proc.code k').isSome →
      n.label k = n.label k' → k = k') :
    (∀ {k c}, callee.proc.code k = some c → some k ≠ trap → (f.proc.code (n.label k)).isSome →
      g.proc.code (n.label k) = some (n.code tail c)) ∧
    ∀ k, (∀ k₀, (callee.proc.code k₀).isSome → some k₀ ≠ trap → n.label k₀ ≠ k) →
      g.proc.code k = f.proc.code k := by
  have hentry : ∀ {e : BlockId × Block}, e ∈ callee.graph.blocks.entries →
      callee.proc.code e.1 = some e.2.code := fun he =>
    Function.code_eq_some.mpr ⟨_, Table.get?_eq_some_iff.mpr he, rfl⟩
  constructor
  · intro k c hc ht hsome
    obtain ⟨b, hb⟩ := Table.contains_iff.mp
      ((h.frame.keys _).trans (Function.isSome_code.mp hsome))
    rcases h.block _ b hb with ⟨-, hl⟩ | ⟨e, he, -, hlabel, hclone⟩
    · obtain ⟨b', hb', -⟩ := Function.code_eq_some.mp hc
      exact absurd rfl (hl (k, b') (Table.get?_eq_some_iff.mp hb') ht)
    · have hk := hinj (by rw [hentry he]; rfl) (by rw [hc]; rfl) hlabel
      have hce := hentry he
      rw [hk, hc] at hce
      cases hce
      exact Function.code_eq_some.mpr ⟨b, hb, hclone.code⟩
  · intro k hk
    cases hb : g.graph.block? k with
    | none =>
      have hno : f.graph.blocks.contains k = false := by
        rw [← h.frame.keys, Table.contains, ← Graph.block?, hb]
        rfl
      rw [Function.code_eq, Function.code_eq, hb]
      cases hf : f.graph.block? k with
      | none => rfl
      | some b => cases hno.symm.trans (Table.contains_iff.mpr ⟨b, hf⟩)
    | some b =>
      rcases h.block k b hb with ⟨hf, -⟩ | ⟨e, he, hne, hlabel, -⟩
      · rw [Function.code_eq, Function.code_eq, hb, hf]
      · exact absurd hlabel (hk e.1 (by rw [hentry he]; rfl) hne)

theorem code_bindResult {d : Reg} (hg : bindResult f tail d returns = .ok g) :
    f.Frame g ∧ ∃ ty, ∀ k, g.proc.code k = if k = tail then (f.proc.code k).map fun c =>
      ⟨c.phis ++ (binding returns ty (some d)).1, (binding returns ty (some d)).2 ++ c.body, c.exit⟩
      else f.proc.code k := by
  have hinsert : ∀ {h : Function} {o : Operation Instruction}, f.Ticks h →
      f.Frame (h.modifyBlock tail fun b => b.insertAt 0 o) ∧ ∀ k,
        (h.modifyBlock tail fun b => b.insertAt 0 o).proc.code k = if k = tail then
          (f.proc.code k).map fun c => ⟨c.phis ++ [], [o.kind] ++ c.body, c.exit⟩
        else f.proc.code k := by
    intro h o ht
    refine ⟨ht.frame.trans (Function.frame_modifyBlock _ _ _), fun k => ?_⟩
    rw [Function.code_modifyBlock, ht.block?, ht.code, Function.code_eq, Option.map_map]
    refine congrArg₂ (ite _) (Option.map_congr fun b _ => ?_) rfl
    simp [Block.insertAt, Block.code]
  unfold bindResult at hg
  split at hg
  iterate 2
    obtain ⟨⟨h, o⟩, h₁, hg⟩ := bind_eq_ok.mp hg
    cases hg
    obtain ⟨ht, hk, -⟩ := Function.ticks_op h₁
    obtain ⟨hframe, hcode⟩ := hinsert (o := o) ht
    exact ⟨hframe, .i64, by rw [hk] at hcode; exact hcode⟩
  · next hnil hone =>
    obtain ⟨⟨h, q⟩, h₁, hg⟩ := bind_eq_ok.mp hg
    cases hg
    obtain ⟨ht, hk, -⟩ := Function.ticks_op h₁
    refine ⟨ht.frame.trans (Function.frame_modifyBlock _ _ _), (f.regTypes.get? d).getD .i64,
      fun k => ?_⟩
    have hbinding : binding returns ((f.regTypes.get? d).getD .i64) (some d) =
        ([⟨d, returns, (f.regTypes.get? d).getD .i64⟩], []) := by
      cases returns with
      | nil => exact absurd rfl hnil
      | cons e l =>
        cases l with
        | nil => exact absurd rfl (hone e.1 e.2)
        | cons e' l => rfl
    rw [Function.code_modifyBlock, ht.block?, ht.code, Function.code_eq, Option.map_map, hbinding]
    refine congrArg₂ (ite _) (Option.map_congr fun b _ => ?_) rfl
    simp [Block.pushPhi, Block.code, hk]

theorem bindParams_of_not_mem {t : Table Reg Operand} (h : r ∉ ps.map Param.reg) :
    (bindParams ps os t).get? r = t.get? r := by
  induction ps generalizing os t with
  | nil => rfl
  | cons p ps ih =>
    obtain ⟨hp, hps⟩ := ne_and_not_mem_of_not_mem_cons h
    cases os with
    | nil => rfl
    | cons o os => rw [bindParams, ih hps, Table.get?_insert, if_neg hp]

theorem forall₂_bindParams {t : Table Reg Operand} (hn : (ps.map Param.reg).Nodup)
    (hl : os.length = ps.length) :
    List.Forall₂ (fun r o => (bindParams ps os t).get? r = some o) (ps.map Param.reg) os := by
  induction ps generalizing os t with
  | nil =>
    cases length_eq_zero_iff.mp hl
    exact .nil
  | cons p ps ih =>
    obtain ⟨hp, hps⟩ := nodup_cons.mp hn
    cases os with
    | nil => cases hl
    | cons o os =>
      refine .cons ?_ (ih hps (Nat.succ.inj hl))
      rw [bindParams, bindParams_of_not_mem hp, Table.get?_insert, if_pos rfl]

theorem renameRegs_bound {l : List (Reg × Ty)} {t t' : Table Reg Operand}
    (hg : renameRegs l f t = .ok (g, t')) :
    ∀ r ∈ l.map Prod.fst, ∃ new, t'.get? r = some (.reg new) ∧ f.nextReg ≤ new.index := by
  have hkeep : ∀ {l : List (Reg × Ty)} {f : Function} {t : Table Reg Operand},
      renameRegs l f t = .ok (g, t') → ∀ r, r ∉ l.map Prod.fst → t'.get? r = t.get? r := by
    intro l
    induction l with
    | nil =>
      intro f t hg r _
      cases hg
      rfl
    | cons e l ih =>
      intro f t hg r hr
      obtain ⟨he, hl⟩ := ne_and_not_mem_of_not_mem_cons hr
      obtain ⟨⟨f₁, new⟩, -, hg⟩ := bind_eq_ok.mp hg
      rw [ih hg r hl, Table.get?_insert, if_neg he]
  induction l generalizing f t with
  | nil => simp
  | cons e l ih =>
    intro r hr
    obtain ⟨⟨f₁, new⟩, h₁, hg⟩ := bind_eq_ok.mp hg
    obtain ⟨hnew, next, hnext, hf₁⟩ := Function.freshTyped_eq_ok h₁
    by_cases hl : r ∈ l.map Prod.fst
    · obtain ⟨new', hget, hle⟩ := ih hg r hl
      refine ⟨new', hget, UInt32.le_trans (UInt32.le_iff_toNat_le.mpr ?_) hle⟩
      rw [hf₁]
      dsimp only
      omega
    · refine ⟨new, ?_, hnew ▸ UInt32.le_refl _⟩
      rw [hkeep hg r hl, Table.get?_insert, if_pos ((mem_cons.mp hr).resolve_right hl)]

theorem defines_iff : callee.proc.Defines r ↔
    r ∈ (callee.graph.blockList.flatMap (blockResults callee)).map Prod.fst := by
  simp only [map_flatMap, map_fst_blockResults, mem_flatMap]
  constructor
  · rintro ⟨k, c, hc, hr⟩
    obtain ⟨b, hb, rfl⟩ := Function.code_eq_some.mp hc
    exact ⟨b, Table.mem_values_iff.mpr ⟨k, hb⟩, b.defs_code ▸ hr⟩
  · rintro ⟨b, hb, hr⟩
    obtain ⟨k, hk⟩ := Table.mem_values_iff.mp hb
    exact ⟨k, b.code, Function.code_eq_some.mpr ⟨b, hk, rfl⟩, b.defs_code.symm ▸ hr⟩

theorem lt_nextReg (hf : f.Numbered) (h : r ∈ f.proc.params ∨ f.proc.Defines r) :
    r.index < f.nextReg := by
  refine hf.defBound r (mem_append.mpr (h.imp (fun h => h) ?_))
  rintro ⟨k, c, hc, hr⟩
  obtain ⟨b, hb, rfl⟩ := Function.code_eq_some.mp hc
  exact Table.mem_flatMap_values.mpr ⟨k, b, hb, b.defs_code ▸ hr⟩

theorem renameRegs_apart {operands : Table Reg Operand} (blocks : Table BlockId BlockId)
    {args : List Operand} (hs : f.Spare head ops regs) (hone : head.once) (hc : callee.Numbered)
    (hargs : args.length = callee.signature.params.length)
    (hg : renameRegs (callee.graph.blockList.flatMap (blockResults callee)) f
      (bindParams callee.signature.params args .empty) = .ok (g, operands)) :
    List.Forall₂ (fun r o => (⟨operands, blocks⟩ : Mapping).operand (.reg r) = o)
      callee.proc.params args ∧
    (∀ {r}, callee.proc.Defines r →
      (⟨operands, blocks⟩ : Mapping).operand (.reg r) = .reg ((⟨operands, blocks⟩ : Mapping).reg r) ∧
        f.nextReg ≤ ((⟨operands, blocks⟩ : Mapping).reg r).index) ∧
    ∀ {r r'}, callee.proc.Defines r → callee.proc.Defines r' →
      (⟨operands, blocks⟩ : Mapping).reg r = (⟨operands, blocks⟩ : Mapping).reg r' → r = r' := by
  obtain ⟨hparams, hresults, hdisjoint⟩ := nodup_append.mp hc.defOnce
  have hnodup : ((callee.graph.blockList.flatMap (blockResults callee)).map Prod.fst).Nodup := by
    simpa only [map_flatMap, map_fst_blockResults] using hresults
  obtain ⟨fresh, hs', hmem, hmap, hkeep⟩ := renameRegs_spare hs hg
  have hreg : ∀ {r new}, operands.get? r = some (.reg new) →
      (⟨operands, blocks⟩ : Mapping).operand (.reg r) = .reg new ∧
        (⟨operands, blocks⟩ : Mapping).reg r = new := by
    intro r new h
    simp [Mapping.operand, Mapping.reg, h, Operand.reg?]
  refine ⟨?_, fun {r} hr => ?_, fun {r r'} hr hr' he => ?_⟩
  · have hbound := (forall₂_and_left _ _).mpr
      ⟨fun r hr => hr, forall₂_bindParams hparams hargs (t := .empty)⟩
    refine hbound.imp ?_
    rintro r o ⟨hr, ho⟩
    have hres : r ∉ (callee.graph.blockList.flatMap (blockResults callee)).map Prod.fst := by
      simp only [map_flatMap, map_fst_blockResults]
      exact fun h => hdisjoint r hr r h rfl
    rw [Mapping.operand, hkeep r hres, ho, getD_some]
  · obtain ⟨new, hnew, hle⟩ := renameRegs_bound hg r (defines_iff.mp hr)
    obtain ⟨ho, hr⟩ := hreg hnew
    rw [ho, hr]
    exact ⟨rfl, hle⟩
  · have hfresh : fresh.Nodup := by
      refine nodup_iff_count.mpr fun r => ?_
      have hle := hs'.defOnce hone r
      rw [count_append] at hle
      omega
    have hinj : ((callee.graph.blockList.flatMap (blockResults callee)).map fun e =>
        operands.get? e.1).Nodup := by
      rw [hmap hnodup]
      exact hfresh.map fun a b h => by simpa using h
    obtain ⟨e, he₁, rfl⟩ := List.mem_map.mp (defines_iff.mp hr)
    obtain ⟨e', he₂, rfl⟩ := List.mem_map.mp (defines_iff.mp hr')
    obtain ⟨new, -, hnew⟩ := hmem e.1 (defines_iff.mp hr)
    obtain ⟨new', -, hnew'⟩ := hmem e'.1 (defines_iff.mp hr')
    rw [(hreg hnew).2, (hreg hnew').2] at he
    have hget : operands.get? e.1 = operands.get? e'.1 := by rw [hnew, hnew', he]
    rw [inj_on_of_nodup_map hinj he₁ he₂ hget]

section

variable {trap : Option BlockId} {tail : BlockId} {copied : List OpId} {f' : Function} {k : BlockId}

theorem Places.label (h : Places trap callee.graph.blocks.keys f g n.blocks)
    (hk : (callee.proc.code k).isSome) : n.blocks.get? k = some (n.label k) ∧
      g.proc.code (n.label k) = some .dead ∧ (f.proc.code (n.label k) = none ∨
        some k = trap ∧ f.trap = some (n.label k) ∧ f.proc.code (n.label k) = some .dead) := by
  obtain ⟨k', hk', hrest⟩ := h.place k (Table.mem_keys_iff.mpr
    (Table.contains_iff.mp (Function.isSome_code.mp hk)))
  have he : n.label k = k' := by rw [Mapping.label, hk', getD_some]
  exact he ▸ ⟨hk', hrest⟩

theorem Places.label_inj (h : Places trap callee.graph.blocks.keys f g n.blocks) {k' : BlockId}
    (hk : (callee.proc.code k).isSome) (hk' : (callee.proc.code k').isSome)
    (he : n.label k = n.label k') : k = k' := by
  have hmem : ∀ {k}, (callee.proc.code k).isSome → k ∈ callee.graph.blocks.keys := fun hk =>
    Table.mem_keys_iff.mpr (Table.contains_iff.mp (Function.isSome_code.mp hk))
  exact h.inj k (hmem hk) k' (hmem hk') (by rw [(h.label hk).1, (h.label hk').1, he])

theorem code_hoistAllocas {key : BlockId} {c : Code} (hc : f.proc.code key = some c)
    (hne : key ≠ f.graph.entry) (k : BlockId) :
    (hoistAllocas f key).proc.code k =
      if k = f.graph.entry then (f.proc.code k).map fun e => e.hoist c.allocas
      else if k = key then some c.withoutAllocas else f.proc.code k := by
  obtain ⟨b, hb, rfl⟩ := Function.code_eq_some.mp hc
  have hallocas : (b.instructions.filter fun o => o.kind.isAlloca).map Operation.kind =
      b.code.allocas := by
    rw [Code.allocas, Block.code, List.filter_map]
    rfl
  rw [Function.code_eq, block?_hoistAllocas hb hne]
  split
  · rw [Function.code_eq, Option.map_map, Option.map_map]
    refine Option.map_congr fun e _ => ?_
    rw [Function.comp_apply, Block.code_withAllocas, hallocas]
    rfl
  · split
    · rw [map_some, Block.code_withoutAllocas]
    · rfl

theorem code_filled (hp : Places trap callee.graph.blocks.keys f g n.blocks)
    (hcopies : Copies n tail trap callee.graph.blocks.entries g f' copied)
    (htrap : ∀ k, trap = some k → callee.proc.code k = some .dead ∧ k ≠ callee.graph.entry)
    (hentry : (callee.proc.code callee.graph.entry).isSome)
    (hne : ∀ {k}, (callee.proc.code k).isSome → n.label k ≠ f'.graph.entry) :
    (∀ {k c}, f.proc.code k = some c →
      (hoistAllocas f' (n.label callee.graph.entry)).proc.code k =
        some (if k = f'.graph.entry then c.hoist (callee.proc.allocas.map n.instruction) else c)) ∧
    (∀ {k c}, callee.proc.code k = some c →
      (hoistAllocas f' (n.label callee.graph.entry)).proc.code (n.label k) =
        some (n.code tail (if k = callee.graph.entry then c.withoutAllocas else c))) ∧
    ∀ {k}, ((hoistAllocas f' (n.label callee.graph.entry)).proc.code k).isSome →
      (f.proc.code k).isSome ∨ ∃ k₀, (callee.proc.code k₀).isSome ∧ n.label k₀ = k := by
  obtain ⟨hclone, hsame⟩ := code_copies hcopies fun hk hk' => hp.label_inj hk hk'
  have hdead : ∀ {k}, (callee.proc.code k).isSome → (g.proc.code (n.label k)).isSome := fun hk => by
    rw [(hp.label hk).2.1]
    rfl
  have hfresh : ∀ k, (callee.proc.code k).isSome → some k ≠ trap →
      f.proc.code (n.label k) = none :=
    fun k hk ht => (hp.label hk).2.2.resolve_right fun h => ht h.1
  obtain ⟨c₀, hc₀⟩ := isSome_iff_exists.mp hentry
  have hfirst := hclone hc₀ (fun h => (htrap _ h.symm).2 rfl) (hdead hentry)
  have hallocas : (n.code tail c₀).allocas = callee.proc.allocas.map n.instruction := by
    rw [Mapping.allocas_code]
    change _ = ((callee.proc.code callee.graph.entry).map Code.allocas |>.getD []).map _
    rw [hc₀]
    rfl
  have hhoist := code_hoistAllocas hfirst (hne hentry)
  rw [hallocas] at hhoist
  refine ⟨fun {k c} hk => ?_, fun {k c} hk => ?_, fun {k} hk => ?_⟩
  · have hk' : f'.proc.code k = some c := by
      rw [hsame k fun k₀ hk₀ ht he => ?_, hp.keeps hk]
      rw [← he, hfresh k₀ hk₀ ht] at hk
      cases hk
    have hkey : k ≠ n.label callee.graph.entry := by
      rintro rfl
      rw [hfresh _ hentry fun h => (htrap _ h.symm).2 rfl] at hk
      cases hk
    rw [hhoist, hk', if_neg hkey]
    split <;> rfl
  · have hsome : (callee.proc.code k).isSome := by rw [hk]; rfl
    rw [hhoist, if_neg (hne hsome)]
    by_cases he : k = callee.graph.entry
    · subst he
      cases hc₀.symm.trans hk
      rw [if_pos rfl, if_pos rfl, Mapping.code_withoutAllocas]
    · rw [if_neg fun h => he (hp.label_inj hsome hentry h), if_neg he]
      by_cases ht : some k = trap
      · obtain ⟨hd, -⟩ := htrap k ht.symm
        cases hd.symm.trans hk
        rw [hsame (n.label k) fun k₀ hk₀ hne he => ?_, (hp.label hsome).2.1]
        · rfl
        · exact hne (hp.label_inj hk₀ hsome he ▸ ht)
      · exact hclone hk ht (hdead hsome)
  · have hg : (g.proc.code k).isSome := by
      refine Function.isSome_code.mpr ((hcopies.frame.keys k).symm.trans ?_)
      rw [← (frame_hoistAllocas f' (n.label callee.graph.entry)).keys]
      exact Function.isSome_code.mp hk
    refine (hp.cover hg).imp_right fun ⟨k₀, hk₀, he⟩ => ⟨k₀, ?_, ?_⟩
    · exact Function.isSome_code.mpr (Table.contains_iff.mpr (Table.mem_keys_iff.mp hk₀))
    · rw [Mapping.label, he, getD_some]

end

theorem sharedTrap?_eq_some (hc : callee.Numbered) (ht : callee.Trapped)
    (h : sharedTrap? callee = some k) :
    callee.proc.code k = some .dead ∧ k ≠ callee.graph.entry := by
  obtain ⟨b, hb, h⟩ := bind_eq_some_iff.mp h
  obtain ⟨s, hs, h⟩ := bind_eq_some_iff.mp h
  split at h
  · cases h
    rw [hc.blockKey b s hs]
    exact ⟨(ht b hb).2, (ht b hb).1⟩
  · cases h

theorem splitBlock_trap {b : BlockId} {tail : Option BlockId}
    (hg : f.splitBlock b i = .ok (g, tail)) : g.trap = f.trap ∧ g.nextReg = f.nextReg := by
  obtain ⟨⟨g₁, tail₁⟩, -, hg⟩ := bind_eq_ok.mp hg
  cases hg
  exact ⟨rfl, rfl⟩

theorem body_eq_of_getElem? (ho : b.instructions[i]? = some o) :
    b.code.body = b.code.body.take i ++ o.kind :: b.code.body.drop (i + 1) := by
  obtain ⟨hi, rfl⟩ := List.getElem?_eq_some_iff.mp ho
  have hi' : i < b.code.body.length := by simpa [Block.code] using hi
  have hget : b.code.body[i] = b.instructions[i].kind := by simp [Block.code]
  rw [← hget, getElem_cons_drop, take_append_drop]

/-- The call is cut out of `f`, which leaves `base`, and there are places for copies of the blocks of
the callee in `wide`. -/
structure Prepared (f callee base wide : Function) (n : Mapping) (call : Call) (b : Block)
    (tail : BlockId) : Prop where
  code : f.proc.code call.block = some b.code
  body : b.code.body = b.code.body.take call.index ++ .call call.dest call.callee call.args ::
    b.code.body.drop (call.index + 1)
  new : f.proc.code tail = none
  cut : ∀ k, base.proc.code k =
    if k = call.block then some ⟨b.code.phis.map fun q => q.retarget call.block tail,
      b.code.body.take call.index, .branch tail⟩
    else if k = tail then some ⟨[], b.code.body.drop (call.index + 1), b.code.exit⟩
    else (f.proc.code k).map fun c => c.retarget call.block tail
  trap : base.trap = f.trap
  places : Places (sharedTrap? callee) callee.graph.blocks.keys base wide n.blocks

namespace Prepared

variable {base wide : Function} {call : Call} {b : Block} {tail k : BlockId} {c : Code}

theorem tail_ne (h : Prepared f callee base wide n call b tail) : tail ≠ call.block := by
  rintro rfl
  cases h.code.symm.trans h.new

theorem not_dead (h : Prepared f callee base wide n call b tail) : b.code ≠ .dead := by
  intro hd
  have hbody := h.body
  rw [hd] at hbody
  simp [Code.dead] at hbody

theorem old (h : Prepared f callee base wide n call b tail) (hk : k ≠ call.block)
    (hc : f.proc.code k = some c) : base.proc.code k = some (c.retarget call.block tail) := by
  have hkt : k ≠ tail := by
    rintro rfl
    cases hc.symm.trans h.new
  rw [h.cut, if_neg hk, if_neg hkt, hc]
  rfl

theorem label_cases (h : Prepared f callee base wide n call b tail) (hc : callee.Numbered)
    (htc : callee.Trapped) (htf : f.Trapped) (hk : callee.proc.code k = some c) :
    base.proc.code (n.label k) = none ∧ f.proc.code (n.label k) = none ∨
      c = .dead ∧ f.proc.code (n.label k) = some .dead ∧ n.label k ≠ f.graph.entry := by
  rcases (h.places.label (by rw [hk]; rfl)).2.2 with hnone | ⟨ht, htr, -⟩
  · refine .inl ⟨hnone, ?_⟩
    by_contra hsome
    obtain ⟨c', hc'⟩ := ne_none_iff_exists'.mp hsome
    by_cases hkb : n.label k = call.block
    · rw [h.cut, if_pos hkb] at hnone
      cases hnone
    · cases (h.old hkb hc').symm.trans hnone
  · obtain ⟨hentry, hdead⟩ := htf _ (h.trap ▸ htr)
    obtain ⟨hd, -⟩ := sharedTrap?_eq_some hc htc ht.symm
    cases hd.symm.trans hk
    exact .inr ⟨rfl, hdead, hentry⟩

theorem label_ne (h : Prepared f callee base wide n call b tail) (hc : callee.Numbered)
    (htc : callee.Trapped) (htf : f.Trapped) (hcon : f.proc.Connected)
    (hk : (callee.proc.code k).isSome) :
    n.label k ≠ tail ∧ n.label k ≠ call.block ∧ n.label k ≠ f.graph.entry := by
  obtain ⟨c, hc'⟩ := isSome_iff_exists.mp hk
  rcases h.label_cases hc htc htf hc' with ⟨hbase, hnone⟩ | ⟨-, hdead, hentry⟩
  · refine ⟨fun he => ?_, fun he => ?_, fun he => ?_⟩
    · rw [he, h.cut, if_neg h.tail_ne, if_pos rfl] at hbase
      cases hbase
    · cases (he ▸ hnone).symm.trans h.code
    · have hsome : (f.proc.code f.graph.entry).isSome := hcon.entry
      rw [← he, hnone] at hsome
      cases hsome
  · refine ⟨fun he => ?_, fun he => ?_, hentry⟩
    · cases (he ▸ hdead).symm.trans h.new
    · exact h.not_dead (Option.some.inj (h.code.symm.trans (he ▸ hdead)))

end Prepared

theorem code_finish (key : BlockId)
    (hg : call.dest = none ∧ g = f ∨ ∃ d, call.dest = some d ∧ bindResult f tail d returns = .ok g)
    (hne : tail ≠ call.block) :
    f.Frame g ∧ ∃ ty, ∀ k, (g.modifyBlock call.block fun b =>
        b.mapTerminator fun t => t.redirect tail key).proc.code k =
      if k = call.block then (f.proc.code k).map fun c => { c with exit := c.exit.redirect tail key }
      else if k = tail then (f.proc.code k).map fun c =>
        ⟨c.phis ++ (binding returns ty call.dest).1, (binding returns ty call.dest).2 ++ c.body, c.exit⟩
      else f.proc.code k := by
  obtain ⟨hframe, ty, hcode⟩ : f.Frame g ∧ ∃ ty, ∀ k, g.proc.code k = if k = tail then
      (f.proc.code k).map fun c => ⟨c.phis ++ (binding returns ty call.dest).1,
        (binding returns ty call.dest).2 ++ c.body, c.exit⟩ else f.proc.code k := by
    rcases hg with ⟨hd, rfl⟩ | ⟨d, hd, hg⟩
    · refine ⟨.refl g, .i64, fun k => ?_⟩
      rw [hd]
      simp [binding]
    · rw [hd]
      exact code_bindResult hg
  refine ⟨hframe, ty, fun k => ?_⟩
  rw [Function.code_modifyBlock]
  split
  · next hk =>
    have hgk := hcode k
    rw [if_neg (hk ▸ hne.symm)] at hgk
    rw [← hgk, Function.code_eq g, Option.map_map]
    rfl
  · exact hcode k

theorem mem_returns (ht : ∀ k, sharedTrap? callee = some k → callee.proc.code k = some .dead)
    (hg : copyBlocks n result tail (sharedTrap? callee) callee.graph.blocks.entries f = .ok (g, d))
    {v : Operand} :
    (k, v) ∈ d.returns ↔ ∃ k₀ c, callee.proc.code k₀ = some c ∧ n.label k₀ = k ∧
      returned? n result c.exit = some v := by
  rw [copyBlocks_returns hg, mem_filterMap]
  constructor
  · rintro ⟨⟨k₀, b⟩, he, hv⟩
    obtain ⟨v', hv', he'⟩ := map_eq_some_iff.mp hv
    cases he'
    exact ⟨k₀, b.code, Function.code_eq_some.mpr
      ⟨b, Table.get?_eq_some_iff.mpr (mem_of_mem_filter he), rfl⟩, rfl, hv'⟩
  · rintro ⟨k₀, c, hk₀, rfl, hv⟩
    obtain ⟨b, hb, rfl⟩ := Function.code_eq_some.mp hk₀
    refine ⟨(k₀, b), mem_filter.mpr ⟨Table.get?_eq_some_iff.mp hb, ?_⟩,
      map_eq_some_iff.mpr ⟨v, hv, rfl⟩⟩
    refine decide_eq_true fun htrap => ?_
    rw [Option.some.inj (hk₀.symm.trans (ht k₀ htrap.symm))] at hv
    cases hv

theorem map_fst_filterMap_sublist {α : Type} (l : List α) (label : α → BlockId)
    (value : α → Option Operand) :
    ((l.filterMap fun e => (value e).map fun v => (label e, v)).map Prod.fst).Sublist
      (l.map label) := by
  induction l with
  | nil => exact .slnil
  | cons e l ih =>
    rw [filterMap_cons]
    cases value e with
    | none => exact ih.cons _
    | some v => exact ih.cons_cons _

theorem nodup_returns (hinj : ∀ {k k'}, (callee.proc.code k).isSome → (callee.proc.code k').isSome →
      n.label k = n.label k' → k = k')
    (hg : copyBlocks n result tail (sharedTrap? callee) callee.graph.blocks.entries f = .ok (g, d)) :
    (d.returns.map Prod.fst).Nodup := by
  have hlabels : (callee.graph.blocks.entries.map fun e => n.label e.1).Nodup := by
    have hmap := List.Nodup.map_on (f := n.label) (fun k hk k' hk' he => ?_) callee.graph.blocks.nodup
    · rwa [List.map_map] at hmap
    · have hsome : ∀ k ∈ callee.graph.blocks.keys, (callee.proc.code k).isSome := fun k hk =>
        Function.isSome_code.mpr (Table.contains_iff.mpr (Table.mem_keys_iff.mp hk))
      exact hinj (hsome k hk) (hsome k' hk') he
  rw [copyBlocks_returns hg]
  refine hlabels.sublist ((map_fst_filterMap_sublist _ _ _).trans ?_)
  exact List.Sublist.map _ filter_sublist

theorem splice_joins (hf : f.Numbered) (hcon : f.proc.Connected) (htf : f.Trapped)
    (hc : callee.Numbered) (hentry : (callee.proc.code callee.graph.entry).isSome)
    (htc : callee.Trapped) (hb : f.graph.block? call.block = some b)
    (ho : b.instructions[call.index]? = some o)
    (hk : o.kind = .call call.dest call.callee call.args)
    (hargs : call.args.length = callee.signature.params.length)
    (hg : splice f callee call = .ok (g, some inlined)) :
    ∃ G : Graft, G.Joins f.proc callee.proc g.proc ∧ G.block = call.block ∧ G.dest = call.dest ∧
      G.callee = call.callee ∧ G.args = call.args ∧ G.result = callee.signature.result ∧
      (g.trap = f.trap ∨ ∃ k, callee.proc.code k = some .dead ∧ g.trap = some (G.names.label k)) := by
  have hheader := (splice_spare (Function.numbered_iff.mp hf) (fun _ => hc) hb ho
    (by rw [hk]; rfl) hg).header
  obtain ⟨f₁, f₂, f₃, f₄, f₅, tail, operands, blocks, copied, h₁, h₂, h₃, h₄, h₅, -, rfl⟩ :=
    splice_eq_ok hg
  let n : Mapping := ⟨operands, blocks⟩
  have hshared : ∀ k, sharedTrap? callee = some k → callee.proc.code k = some .dead ∧
    k ≠ callee.graph.entry := fun k hk => sharedTrap?_eq_some hc htc hk
  obtain ⟨hnew, hcut⟩ := code_cut hf hcon hb h₁
  obtain ⟨s, hs, hi⟩ := Function.splitBlock_first h₁ hb
  have hs₁ := dropCall_spare ((Function.numbered_iff.mp hf).splitBlock h₁) ho hs hi
  obtain ⟨hparams, hregs, hreg⟩ := renameRegs_apart blocks hs₁ trivial hc hargs h₂
  obtain ⟨fresh, hs₂, -⟩ := renameRegs_spare hs₁ h₂
  obtain ⟨htick, -⟩ := renameRegs_ticks h₂
  have hcode : f.proc.code call.block = some b.code := Function.code_eq_some.mpr ⟨b, hb, rfl⟩
  have htrap₂ : f₂.trap = f.trap := htick.trap.trans (splitBlock_trap h₁).1
  have hprep : Prepared f callee f₂ f₃ n call b tail := by
    refine ⟨hcode, hk ▸ body_eq_of_getElem? ho, hnew, fun k => (htick.code k).trans (hcut k), htrap₂,
      renameBlocks_places hs₂ trivial (fun k hk => ?_) callee.graph.blocks.nodup h₃⟩
    rw [htick.code, hcut, (htf k (htrap₂ ▸ hk)).2]
    split
    · rfl
    · split <;> rfl
  have hlabel : ∀ {k}, (callee.proc.code k).isSome → n.label k ≠ tail ∧ n.label k ≠ call.block ∧
    n.label k ≠ f.graph.entry := fun hk => hprep.label_ne hc htc htf hcon hk
  have htail : tail ≠ f.graph.entry := by
    rintro rfl
    have hsome := hcon.entry
    change (f.proc.code f.graph.entry).isSome at hsome
    rw [hnew] at hsome
    cases hsome
  have hcopies := copyBlocks_copies h₄
  have hentry₄ : f₄.graph.entry = f.graph.entry :=
    hcopies.frame.entry.trans (congrArg Header.entry (renameBlocks_spare hs₂ h₃).header)
  obtain ⟨hkeep, hcopy, hcover⟩ := code_filled hprep.places hcopies hshared hentry
    fun hk => hentry₄ ▸ (hlabel hk).2.2
  rw [hentry₄] at hkeep
  obtain ⟨hframe₅, ty, hlast⟩ := code_finish (n.label callee.graph.entry) h₅ hprep.tail_ne
  let G : Graft := ⟨call.block, b.code.phis, b.code.body.take call.index, call.dest, call.callee,
    call.args, b.code.body.drop (call.index + 1), b.code.exit, n, tail, callee.signature.result,
    copied.returns, ty⟩
  refine ⟨G, ?_, rfl, rfl, rfl, rfl, rfl, ?_⟩
  · constructor
    case params => exact congrArg (fun h => h.signature.params.map Param.reg) hheader
    case varargs => exact congrArg (fun h => h.signature.varargs) hheader
    case entry => exact congrArg Header.entry hheader
    case call =>
      rw [hcode]
      exact congrArg (fun l => some (⟨b.code.phis, l, b.code.exit⟩ : Code)) hprep.body
    case head =>
      have hbase : f₂.proc.code call.block = _ := (hprep.cut _).trans (if_pos rfl)
      have hturn : (Terminator.branch tail).redirect tail (n.label callee.graph.entry) =
          .branch (n.label callee.graph.entry) := by
        simp [Terminator.redirect, Terminator.mapTargets]
      rw [hlast, if_pos rfl, hkeep hbase, Graft.hoist, map_some]
      by_cases he : call.block = f.graph.entry
      · rw [if_pos he, if_pos (show G.block = f.proc.entry from he), Code.hoist, hturn]
        rfl
      · rw [if_neg he, if_neg (show G.block ≠ f.proc.entry from he), hturn]
        rfl
    case tail =>
      have hbase : f₂.proc.code tail = _ :=
        (hprep.cut _).trans ((if_neg hprep.tail_ne).trans (if_pos rfl))
      rw [hlast, if_neg hprep.tail_ne, if_pos rfl, hkeep hbase, if_neg htail]
      rfl
    case old =>
      intro k c hkb hk
      have hkt : k ≠ tail := by
        rintro rfl
        cases hk.symm.trans hnew
      rw [hlast, if_neg hkb, if_neg hkt, hkeep (hprep.old hkb hk)]
      rfl
    case copy =>
      intro k c hk
      obtain ⟨hkt, hkb, -⟩ := hlabel (k := k) (by rw [hk]; rfl)
      rw [hlast, if_neg hkb, if_neg hkt]
      exact hcopy hk
    case cover =>
      intro k hk
      by_cases hkb : k = call.block
      · exact .inl (by rw [hkb, hcode]; rfl)
      by_cases hkt : k = tail
      · exact .inr (.inl hkt)
      rw [hlast, if_neg hkb, if_neg hkt] at hk
      refine (hcover hk).imp (fun h => ?_) .inr
      rw [hprep.cut, if_neg hkb, if_neg hkt, isSome_map] at h
      exact h
    case tail_new => exact hnew
    case label_ne_tail => exact fun hk => (hlabel hk).1
    case label_ne_entry => exact fun hk => (hlabel hk).2.2
    case label_new =>
      exact fun hk => (hprep.label_cases hc htc htf hk).imp And.right fun h => ⟨h.1, h.2.1⟩
    case label_inj => exact hprep.places.label_inj
    case returns => exact mem_returns (fun k hk => (hshared k hk).1) h₄
    case returns_once => exact nodup_returns hprep.places.label_inj h₄
    case args => exact hparams
    case reg_new =>
      intro r hr
      obtain ⟨ho, hle⟩ := hregs hr
      have hbound : f.nextReg ≤ (n.reg r).index := (splitBlock_trap h₁).2 ▸ hle
      have hno : ¬ (n.reg r ∈ f.proc.params ∨ f.proc.Defines (n.reg r)) := fun h =>
        UInt32.lt_irrefl _ (UInt32.lt_of_le_of_lt hbound (lt_nextReg hf h))
      exact ⟨ho, fun h => hno (.inl h), fun h => hno (.inr h)⟩
    case reg_inj => exact hreg
  · have htrap : (f₅.modifyBlock call.block fun b => b.mapTerminator fun t =>
        t.redirect tail (n.label callee.graph.entry)).trap = f₃.trap :=
      hframe₅.trap.trans (hcopies.frame.trans (frame_hoistAllocas f₄ _)).trap
    rcases hprep.places.trap with h | ⟨k, hk, hkt, h⟩
    · exact .inl (htrap.trans (h.trans htrap₂))
    · obtain ⟨hdead, -⟩ := hshared k hkt.symm
      refine .inr ⟨k, hdead, htrap.trans (h.trans ?_)⟩
      exact (hprep.places.label (by rw [hdead]; rfl)).1

end Inline

end SiteFusion
