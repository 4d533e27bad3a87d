import SiteFusion.Proofs.CopiedBlocks

namespace SiteFusion

open List Option

structure Law where
  function : FuncId → Prop
  global : GlobalId → Prop
  /-- Which calls there may be, by their numbers and callees. -/
  call : OpId → FuncId → Prop
  /-- Whether branches and notes are looked at. -/
  strict : Prop
  /-- Whether no branch may lead to the entry block. -/
  free : Prop

def Law.lax : Law := ⟨fun _ => True, fun _ => True, fun _ _ => True, False, False⟩

namespace Law

variable {l : Law} {first first' : Prop} {o : Operation Instruction} {i : Instruction}
  {φ : Operand → Operand}

/-- Everything that an instruction refers to is allowed. -/
def Refers (l : Law) (i : Instruction) : Prop :=
  (∀ c, i.function? = some c → l.function c) ∧ ∀ g, i.global? = some g → l.global g

/-- What an operation refers to is allowed, and so is the call if it is one. -/
def Allows (l : Law) (o : Operation Instruction) : Prop :=
  l.Refers o.kind ∧ ∀ c, o.kind.callee? = some c → l.call o.id c

/-- Notes that do not make the start of a site. -/
def Plain (l : Law) (t : Tags) : Prop := l.strict → t.get? SiteNote.start = none

/-- Whether an instruction may stand in a block, which is the first one or not. -/
def Stands (l : Law) (first : Prop) (o : Operation Instruction) : Prop :=
  l.Allows o ∧ (l.Plain o.tags ∨ o.kind = .marker ∧ ¬ first)

theorem plain_empty (l : Law) : l.Plain .empty := fun _ => rfl

theorem refers_mapOperands : l.Refers (i.mapOperands φ) ↔ l.Refers i := by
  cases i <;> exact Iff.rfl

theorem refers_mapDest {φ : Reg → Reg} : l.Refers (i.mapDest φ) ↔ l.Refers i := by
  cases i <;> exact Iff.rfl

theorem refers_of_none (hf : i.function? = none) (hg : i.global? = none) : l.Refers i := by
  refine ⟨fun c hc => ?_, fun g hc => ?_⟩
  · rw [hf] at hc
    cases hc
  · rw [hg] at hc
    cases hc

theorem allows_of_none (hf : o.kind.function? = none) (hg : o.kind.global? = none) : l.Allows o := by
  refine ⟨refers_of_none hf hg, fun c hc => ?_⟩
  cases hk : o.kind with
  | call d c args =>
    rw [hk] at hf
    cases hf
  | _ =>
    rw [hk] at hc
    cases hc

theorem Stands.plain (h : l.Stands first o) (hm : o.kind ≠ .marker) : l.Plain o.tags :=
  h.2.resolve_right fun hk => hm hk.1

theorem Stands.later (h : l.Stands first o) (hn : l.strict → ¬ first') : l.Stands first' o := by
  refine ⟨h.1, ?_⟩
  by_cases hs : l.strict
  · exact h.2.imp_right fun hk => ⟨hk.1, hn hs⟩
  · exact .inl fun h => absurd h hs

theorem stands_of_plain (hk : l.Allows o) (ht : l.Plain o.tags) : l.Stands first o :=
  ⟨hk, .inl ht⟩

theorem stands_of_none (hf : o.kind.function? = none) (hg : o.kind.global? = none)
    (ht : l.Plain o.tags) : l.Stands first o :=
  stands_of_plain (allows_of_none hf hg) ht

theorem Stands.map (h : l.Stands first o) : l.Stands first (o.map fun i => i.mapOperands φ) := by
  have hcallee : (o.kind.mapOperands φ).callee? = o.kind.callee? := by cases o.kind <;> rfl
  refine ⟨⟨refers_mapOperands.mpr h.1.1, fun c hc => h.1.2 c (hcallee.symm.trans hc)⟩,
    h.2.imp_right fun hk => ⟨?_, hk.2⟩⟩
  rw [Operation.map, hk.1]
  rfl

end Law

/-- A block that obeys a law, in a function whose branches may lead to the blocks `there`. -/
structure Block.Lawful (l : Law) (there : BlockId → Prop) (first : Prop) (b : Block) : Prop where
  phis : ∀ p ∈ b.phis, l.Plain p.tags
  instructions : ∀ o ∈ b.instructions, l.Stands first o
  edges : l.strict → ∀ s ∈ b.successors, there s

namespace Block

variable {l : Law} {there there' : BlockId → Prop} {first : Prop} {b b' : Block}
  {o : Operation Instruction}

theorem Lawful.mono (hb : b.Lawful l there first) (ht : l.strict → ∀ s, there s → there' s) :
    b.Lawful l there' first :=
  ⟨hb.phis, hb.instructions, fun hl s hs => ht hl s (hb.edges hl s hs)⟩

theorem lawful_fresh (k : BlockId) (o : OpId) : (fresh k o).Lawful l there first :=
  ⟨(fun _ h => nomatch h), (fun _ h => nomatch h), fun _ _ h => nomatch h⟩

theorem Kept.successors_eq (h : b.Kept b') : b'.successors = b.successors := by
  rw [successors, successors, h.terminator]

theorem Kept.lawful (h : b.Kept b') (hb : b.Lawful l there first) : b'.Lawful l there first := by
  refine ⟨fun p hp => ?_, h.instructions ▸ hb.instructions, h.successors_eq ▸ hb.edges⟩
  obtain ⟨q, hq, he⟩ := List.mem_map.mp (h.phis ▸ List.mem_map_of_mem hp)
  exact he ▸ hb.phis q hq

theorem Lawful.setInstructions (hb : b.Lawful l there first) {is : List (Operation Instruction)}
    (hi : ∀ o ∈ is, l.Stands first o) :
    ({ b with instructions := is } : Block).Lawful l there first :=
  ⟨hb.phis, hi, hb.edges⟩

theorem Lawful.insertAt (hb : b.Lawful l there first) (i : Nat) (ho : l.Stands first o) :
    (b.insertAt i o).Lawful l there first := by
  refine hb.setInstructions fun a ha => ?_
  rcases mem_append.mp ha with ha | ha
  · exact hb.instructions a (mem_of_mem_take ha)
  · rcases mem_cons.mp ha with rfl | ha
    · exact ho
    · exact hb.instructions a (mem_of_mem_drop ha)

theorem Lawful.push (hb : b.Lawful l there first) (ho : l.Stands first o) :
    (b.push o).Lawful l there first := by
  refine hb.setInstructions fun a ha => ?_
  rcases mem_append.mp ha with ha | ha
  · exact hb.instructions a ha
  · exact mem_singleton.mp ha ▸ ho

end Block

namespace Terminator

def isSwitch : Terminator → Bool
  | .switch _ _ _ => true
  | _ => false

theorem isSwitch_mapOperands (t : Terminator) (c : Operand → Operand) :
    (t.mapOperands c).isSwitch = t.isSwitch := by
  cases t <;> rfl

theorem isSwitch_mapTargets (t : Terminator) (c : BlockId → BlockId) :
    (t.mapTargets c).isSwitch = t.isSwitch := by
  cases t <;> rfl

end Terminator

/-- The number of a block, and the site whose switch it ends in. -/
def Block.exit (b : Block) : BlockId × Option (String × UInt64) := (b.id, Site.dispatch? b)

theorem Block.exit_congr {b b' : Block} (hid : b'.id = b.id)
    (ht : b'.terminator.tags = b.terminator.tags)
    (hk : b'.terminator.kind.isSwitch = b.terminator.kind.isSwitch) : b'.exit = b.exit := by
  refine Prod.ext hid ?_
  change Site.dispatch? b' = Site.dispatch? b
  unfold Site.dispatch?
  rw [ht]
  cases hb : b.terminator.kind <;> cases hb' : b'.terminator.kind <;> rw [hb, hb'] at hk <;>
    first | rfl | cases hk

namespace Function

def Open (free : Prop) (f : Function) (k : BlockId) : Prop :=
  f.graph.blocks.contains k = true ∧ (free → k ≠ f.graph.entry)

theorem There.isOpen {f : Function} {k : BlockId} (h : f.There k) (free : Prop) : f.Open free k :=
  ⟨h.1, fun _ => h.2⟩

/-- A function that obeys a law. -/
structure Lawful (l : Law) (f : Function) : Prop where
  entry : l.strict →
    f.graph.blocks.contains f.graph.entry = true ∧ f.graph.entry.index < f.graph.nextBlock
  trap : l.strict → f.trap ≠ some f.graph.entry
  block : ∀ k b, f.graph.block? k = some b → b.Lawful l (f.Open l.free) (k = f.graph.entry)

/-- A change that keeps a law, and that loses no blocks. -/
structure Leads (l : Law) (f g : Function) : Prop where
  lawful : g.Lawful l
  header : g.header = f.header
  there : ∀ k, f.graph.blocks.contains k = true → g.graph.blocks.contains k = true

/-- How the blocks of a function end, under their keys. -/
def exits (f : Function) : List (BlockId × BlockId × Option (String × UInt64)) :=
  f.graph.blocks.entries.map fun e => (e.1, e.2.exit)

/-- A change that keeps a law, within the blocks that there are: they keep their numbers, and the
switches of sites that they end in. -/
structure Stays (l : Law) (f g : Function) : Prop extends Leads l f g where
  exits : g.exits = f.exits

variable {l : Law} {f g h : Function} {k : BlockId} {b : BlockId}

theorem Lawful.leads (hf : f.Lawful l) : f.Leads l f := ⟨hf, rfl, fun _ h => h⟩

theorem Leads.trans (hg : f.Leads l g) (hh : g.Leads l h) : f.Leads l h :=
  ⟨hh.lawful, hh.header.trans hg.header, fun k hk => hh.there k (hg.there k hk)⟩

theorem Lawful.stays (hf : f.Lawful l) : f.Stays l f := ⟨hf.leads, rfl⟩

theorem Stays.trans (hg : f.Stays l g) (hh : g.Stays l h) : f.Stays l h :=
  ⟨hg.toLeads.trans hh.toLeads, hh.exits.trans hg.exits⟩

theorem Leads.entry_eq (hg : f.Leads l g) : g.graph.entry = f.graph.entry :=
  congrArg Header.entry hg.header

theorem Leads.isOpen {free : Prop} (hg : f.Leads l g) (hk : f.Open free k) : g.Open free k := by
  rw [Open, hg.entry_eq]
  exact ⟨hg.there k hk.1, hk.2⟩

theorem Leads.isThere (hg : f.Leads l g) (hk : f.There k) : g.There k := by
  rw [There, hg.entry_eq]
  exact ⟨hg.there k hk.1, hk.2⟩

theorem lawful_lax (f : Function) : f.Lawful .lax := by
  refine ⟨False.elim, False.elim, fun k b _ => ⟨fun _ _ => False.elim, fun o _ => ?_, False.elim⟩⟩
  exact ⟨⟨⟨fun _ _ => trivial, fun _ _ => trivial⟩, fun _ _ => trivial⟩, .inl False.elim⟩

theorem Lawful.frame (hf : f.Lawful l) (hg : f.Frame g)
    (hb : ∀ k b, g.graph.block? k = some b → b.Lawful l (f.Open l.free) (k = f.graph.entry)) :
    f.Leads l g := by
  have hopen : g.Open l.free = f.Open l.free := by
    funext k
    rw [Open, Open, hg.keys, hg.entry]
  refine ⟨⟨fun hs => ?_, fun hs => ?_, fun k b hk => ?_⟩, hg.header, fun k hk => (hg.keys k).trans hk⟩
  · rw [hg.keys, hg.entry, hg.label]
    exact hf.entry hs
  · rw [hg.trap, hg.entry]
    exact hf.trap hs
  · rw [hopen, hg.entry]
    exact hb k b hk

theorem Lawful.ticks (hf : f.Lawful l) (hg : f.Ticks g) : f.Leads l g :=
  hf.frame hg.frame fun k b hk => hf.block k b (hg.block? k ▸ hk)

theorem Lawful.mapBlocks (hf : f.Lawful l) {c : BlockId → Block → Block}
    (hc : ∀ k b, f.graph.block? k = some b → b.Lawful l (f.Open l.free) (k = f.graph.entry) →
      (c k b).Lawful l (f.Open l.free) (k = f.graph.entry)) : f.Leads l (f.mapBlocks c) := by
  refine hf.frame ⟨rfl, rfl, rfl, fun _ => contains_mapBlocks⟩ fun k b' hk => ?_
  rw [block?_mapBlocks] at hk
  obtain ⟨b, hb, rfl⟩ := map_eq_some_iff.mp hk
  exact hc k b hb (hf.block k b hb)

theorem Lawful.modifyBlock (hf : f.Lawful l) {c : Block → Block}
    (hc : ∀ b, f.graph.block? k = some b → b.Lawful l (f.Open l.free) (k = f.graph.entry) →
      (c b).Lawful l (f.Open l.free) (k = f.graph.entry)) : f.Leads l (f.modifyBlock k c) := by
  rw [modifyBlock_eq_mapBlocks]
  refine hf.mapBlocks fun k' b hb hl => ?_
  split
  · next he =>
    subst he
    exact hc b hb hl
  · exact hl

theorem Ticks.exits (h : f.Ticks g) : g.exits = f.exits := by
  rw [Function.exits, Function.exits, h.blocks]

theorem exits_mapBlocks {c : BlockId → Block → Block}
    (hc : ∀ k b, f.graph.block? k = some b → (c k b).exit = b.exit) :
    (f.mapBlocks c).exits = f.exits :=
  List.map_map.trans (map_congr_left fun e he =>
    Prod.ext rfl (hc e.1 e.2 (Table.get?_eq_some_iff.mpr he)))

theorem exits_modifyBlock {c : Block → Block}
    (hc : ∀ b, f.graph.block? k = some b → (c b).exit = b.exit) :
    (f.modifyBlock k c).exits = f.exits := by
  rw [modifyBlock_eq_mapBlocks]
  refine exits_mapBlocks fun k' b hb => ?_
  split
  · next h => exact hc b (h ▸ hb)
  · rfl

theorem Lawful.tick (hf : f.Lawful l) (hg : f.Ticks g) : f.Stays l g := ⟨hf.ticks hg, hg.exits⟩

theorem Lawful.patch (hf : f.Lawful l) {c : Block → Block}
    (hc : ∀ b, f.graph.block? k = some b → b.Lawful l (f.Open l.free) (k = f.graph.entry) →
      (c b).Lawful l (f.Open l.free) (k = f.graph.entry) ∧ (c b).exit = b.exit) :
    f.Stays l (f.modifyBlock k c) := by
  refine ⟨hf.modifyBlock fun b hb hl => (hc b hb hl).1, exits_modifyBlock fun b hb => ?_⟩
  exact (hc b hb (hf.block k b hb)).2

theorem Lawful.createBlock (hf : f.Lawful l) (hg : f.createBlock = .ok (g, b)) :
    f.Leads l g ∧ (l.strict → g.There b) := by
  have hblock := block?_createBlock hg
  obtain ⟨rfl, nextBlock, nextOp, hnext, -, rfl⟩ := createBlock_eq_ok hg
  have hthere : ∀ k, f.graph.blocks.contains k = true →
      (f.graph.blocks.insert ⟨f.graph.nextBlock⟩
        (.fresh ⟨f.graph.nextBlock⟩ ⟨f.graph.nextOp⟩)).contains k = true :=
    fun k hk => Table.contains_insert.mpr (.inr hk)
  refine ⟨⟨⟨fun hs => ?_, hf.trap, fun k b hb => ?_⟩, rfl, hthere⟩, fun hs => ?_⟩
  · obtain ⟨hentry, hlt⟩ := hf.entry hs
    refine ⟨hthere _ hentry, UInt32.lt_iff_toNat_lt.mpr ?_⟩
    rw [hnext]
    exact Nat.lt_succ_of_lt (UInt32.lt_iff_toNat_lt.mp hlt)
  · rw [hblock] at hb
    split at hb
    · cases hb
      exact Block.lawful_fresh _ _
    · exact (hf.block k b hb).mono fun _ s hs => ⟨hthere s hs.1, hs.2⟩
  · refine ⟨Table.contains_insert.mpr (.inl rfl), fun he => ?_⟩
    have hlt := (hf.entry hs).2
    rw [← he] at hlt
    exact UInt32.lt_irrefl _ hlt

theorem Lawful.mapPhis (hf : f.Lawful l) (bs : List BlockId) (c : Phi → Phi) :
    f.Leads l { f with graph := f.graph.modifyBlocks bs fun s => s.mapPhis c } := by
  refine hf.mapBlocks (c := fun k b => if bs.contains k then b.mapPhis c else b) fun k b _ hb => ?_
  split
  · exact (b.kept_mapPhis c).lawful hb
  · exact hb

theorem Lawful.retargetPhis (hf : f.Lawful l) (b old new : BlockId) :
    f.Leads l { f with graph := f.graph.retargetPhis b old new } := by
  unfold Graph.retargetPhis
  split
  · exact hf.leads
  · exact hf.mapPhis _ _

theorem Lawful.splitBlock (hf : f.Lawful l) {b : BlockId} {i : Nat} {tail : Option BlockId}
    (hg : f.splitBlock b i = .ok (g, tail)) :
    f.Leads l g ∧ ∀ t, tail = some t → l.strict → g.There t := by
  rcases splitBlock_cases hg with
    ⟨rfl, rfl, -⟩ | ⟨source, f₁, t, f₂, branch, -, hc, ho, hs, -, rfl, rfl⟩
  · exact ⟨hf.leads, fun _ h => nomatch h⟩
  · obtain ⟨h₁, ht⟩ := hf.createBlock hc
    obtain ⟨htick, hkind, -⟩ := ticks_op ho
    have h₂ := h₁.lawful.ticks htick
    have ht₂ : l.strict → f₂.There t := fun hl => h₂.isThere (ht hl)
    have h₃ : f₂.Leads l (f₂.modifyBlock b fun s =>
        { s with instructions := s.instructions.take i, terminator := branch }) := by
      refine h₂.lawful.modifyBlock fun s _ hb => ⟨hb.phis, fun o ho => ?_, fun hl x hx => ?_⟩
      · exact hb.instructions o (mem_of_mem_take ho)
      · rw [Block.successors, hkind, Terminator.successors, mem_singleton] at hx
        exact hx ▸ (ht₂ hl).isOpen _
    have h₄ := h₃.lawful.modifyBlock (k := t) (c := fun s =>
        { s with
          instructions := source.instructions.drop i
          terminator := source.terminator }) fun s _ hb => by
      have hsource := h₁.lawful.block b source hs
      refine ⟨hb.phis, fun o ho => ?_, fun hl x hx => ?_⟩
      · exact (hsource.instructions o (mem_of_mem_drop ho)).later fun hl => (ht₂ hl).2
      · exact h₃.isOpen (h₂.isOpen (hsource.edges hl x hx))
    have h₅ := h₄.lawful.retargetPhis t b t
    refine ⟨h₁.trans (h₂.trans (h₃.trans (h₄.trans h₅))), fun t' ht' hl => ?_⟩
    cases ht'
    exact h₅.isThere (h₄.isThere (h₃.isThere (ht₂ hl)))

theorem Lawful.trapBlock (hf : f.Lawful l) (hg : f.trapBlock = .ok (g, b)) :
    f.Leads l g ∧ (l.strict → g.There b) := by
  unfold Function.trapBlock at hg
  dsimp only at hg
  split at hg
  · next hb =>
    cases hg
    obtain ⟨htrap, hintact⟩ := filter_eq_some_iff.mp hb
    refine ⟨hf.leads, fun hl => ⟨?_, fun he => hf.trap hl (he ▸ htrap)⟩⟩
    cases hk : f.graph.block? b with
    | none =>
      rw [hk] at hintact
      cases hintact
    | some s => exact Table.contains_iff.mpr ⟨s, hk⟩
  · obtain ⟨⟨f₁, b₁⟩, h₁, hg⟩ := bind_eq_ok.mp hg
    cases hg
    obtain ⟨h₁, ht⟩ := hf.createBlock h₁
    have h₂ := h₁.trans (h₁.lawful.modifyBlock (k := b₁) (c := fun t =>
      { t with label := some "unreachable" }) fun s _ hb => ⟨hb.phis, hb.instructions, hb.edges⟩)
    refine ⟨⟨⟨h₂.lawful.entry, fun hl he => ?_, h₂.lawful.block⟩, h₂.header, h₂.there⟩,
      fun hl => ⟨(contains_mapBlocks (f := f₁)).trans (ht hl).1, (ht hl).2⟩⟩
    exact (ht hl).2 (Option.some.inj he)

theorem Lawful.removeDeadBlocks (hf : f.Lawful l) :
    f.removeDeadBlocks.Lawful l ∧ f.removeDeadBlocks.header = f.header := by
  obtain ⟨c, hc, hblock⟩ := f.block?_removeDeadBlocks
  obtain ⟨hhead, hnext, htrap⟩ := removeBlocks_frame f.deadBlocks f
  obtain ⟨hlive, hclosed⟩ := f.graph.reachable_closed
  have hentry : f.removeDeadBlocks.graph.entry = f.graph.entry := congrArg Header.entry hhead
  have hto : ∀ k, k ∈ f.graph.reachable → f.graph.blocks.contains k = true →
      f.removeDeadBlocks.graph.blocks.contains k = true := by
    intro k hk hb
    obtain ⟨b, hb⟩ := Table.contains_iff.mp hb
    refine Table.contains_iff.mpr ⟨c k b, (hblock k).trans ?_⟩
    rw [if_pos hk, Graph.block?, hb]
    rfl
  refine ⟨⟨fun hl => ?_, fun hl he => ?_, fun k b' hk => ?_⟩, hhead⟩
  · rw [hentry]
    refine ⟨hto _ hlive (hf.entry hl).1, ?_⟩
    exact hnext.symm ▸ (hf.entry hl).2
  · rw [hentry] at he
    rcases htrap with ht | ht
    · exact hf.trap hl (ht.symm.trans he)
    · cases ht.symm.trans he
  · rw [hblock] at hk
    split at hk
    · next hreach =>
      obtain ⟨b, hb, rfl⟩ := map_eq_some_iff.mp hk
      have hlaw := (hc k b).lawful (hf.block k b hb)
      rw [hentry]
      refine ⟨hlaw.phis, hlaw.instructions, fun hl s hs => ?_⟩
      have hsucc : s ∈ f.graph.successorsOf k := by
        rw [Graph.successorsOf, hb]
        rw [(hc k b).successors_eq] at hs
        exact hs
      obtain ⟨hthere, hfree⟩ := hlaw.edges hl s hs
      exact ⟨hto s (hclosed k hreach s hsucc) hthere, fun hfr => hentry ▸ hfree hfr⟩
    · cases hk

end Function

end SiteFusion
