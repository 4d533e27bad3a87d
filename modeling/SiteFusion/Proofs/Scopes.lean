import SiteFusion.Proofs.Dominance
import SiteFusion.Proofs.WellFormedModules

namespace SiteFusion

open Option

/-- The registers that a block defines. -/
def Code.defs (c : Code) : List Reg :=
  c.phis.map Phi.dest ++ c.body.filterMap Instruction.dest?

theorem Block.defs_code (b : Block) : b.code.defs = b.defs := by
  simp only [Code.defs, Block.code, Block.defs, List.map_map, List.filterMap_map]
  rfl

namespace Proc

def Edge (p : Proc) (a b : BlockId) : Prop := ∃ c, p.code a = some c ∧ b ∈ c.exit.successors

/-- A way from the entry to a block, with the blocks on it, the last one first. -/
inductive Walk (p : Proc) : BlockId → List BlockId → Prop
  | start (h : (p.code p.entry).isSome) : Walk p p.entry [p.entry]
  | step {a b : BlockId} {l : List BlockId} (w : Walk p a l) (h : p.Edge a b)
      (hb : (p.code b).isSome) : Walk p b (b :: l)

/-- A register may be read in the block `k`, where `before` was defined in that block. -/
inductive Visible (p : Proc) (k : BlockId) (before : List Reg) (r : Reg) : Prop
  | param (h : r ∈ p.params)
  | here (h : r ∈ before)
  | above {k' : BlockId} {c : Code} (hne : k' ≠ k) (hc : p.code k' = some c) (hr : r ∈ c.defs)
      (hd : ∀ l, p.Walk k l → k' ∈ l)

/-- Control stays in the code and does not come back to the entry, and phis expect one value from
every predecessor. -/
structure Connected (p : Proc) : Prop where
  entry : (p.code p.entry).isSome
  root : ∀ k, ¬ p.Edge k p.entry
  target : ∀ {a b}, p.Edge a b → (p.code b).isSome
  once : ∀ {k c}, p.code k = some c → ∀ q ∈ c.phis, (q.incoming.map Prod.fst).Nodup
  source : ∀ {k c}, p.code k = some c → ∀ q ∈ c.phis, ∀ a,
    a ∈ q.incoming.map Prod.fst ↔ p.Edge a k

/-- Registers are read where they are visible. What a phi reads is read at the end of the block that
control comes from. -/
structure Scoped (p : Proc) : Prop where
  incoming : ∀ {k c}, p.code k = some c → ∀ q ∈ c.phis, ∀ {a r}, (a, .reg r) ∈ q.incoming →
    ∀ {c'}, p.code a = some c' → p.Visible a c'.defs r
  body : ∀ {k c}, p.code k = some c → ∀ {pre i post}, c.body = pre ++ i :: post → ∀ r ∈ i.uses,
    p.Visible k (c.phis.map Phi.dest ++ pre.filterMap Instruction.dest?) r
  exit : ∀ {k c}, p.code k = some c → ∀ r ∈ c.exit.uses, p.Visible k c.defs r

variable {p : Proc} {k : BlockId} {l : List BlockId}

theorem Walk.mem (w : p.Walk k l) : k ∈ l := by
  cases w <;> simp

theorem Walk.isSome (w : p.Walk k l) : (p.code k).isSome := by
  cases w with
  | start h => exact h
  | step _ _ hb => exact hb

theorem Walk.isSome_of_mem (w : p.Walk k l) {k' : BlockId} (h : k' ∈ l) : (p.code k').isSome := by
  induction w with
  | start hs =>
    cases List.mem_singleton.mp h
    exact hs
  | step _ _ hb ih =>
    rcases List.mem_cons.mp h with rfl | h
    · exact hb
    · exact ih h

theorem Walk.entry_mem (w : p.Walk k l) : p.entry ∈ l := by
  induction w with
  | start _ => exact List.mem_cons_self
  | step _ _ _ ih => exact List.mem_cons_of_mem _ ih

end Proc

namespace Function

variable {m : Module} {f : Function} {k : BlockId} {b : Block} {d : Definition} {seen : List OpId}
  {u : Use}

theorem code_eq_some {c : Code} :
    f.proc.code k = some c ↔ ∃ b, f.graph.block? k = some b ∧ b.code = c :=
  map_eq_some_iff

theorem isSome_code : (f.proc.code k).isSome ↔ f.graph.blocks.contains k = true := by
  rw [Table.contains_iff, ← isSome_iff_exists]
  exact Bool.eq_iff_iff.mp isSome_map

theorem edge_iff {a : BlockId} : f.proc.Edge a k ↔ k ∈ f.graph.successorsOf a := by
  rw [Graph.mem_successorsOf]
  constructor
  · rintro ⟨c, hc, hk⟩
    obtain ⟨b, hb, rfl⟩ := code_eq_some.mp hc
    exact ⟨b, hb, hk⟩
  · rintro ⟨b, hb, hk⟩
    exact ⟨b.code, code_eq_some.mpr ⟨b, hb, rfl⟩, hk⟩

theorem walk_iff {l : List BlockId} : f.proc.Walk k l ↔ f.graph.Walk k l := by
  constructor
  · intro w
    induction w with
    | start h => exact .start (isSome_code.mp h)
    | step _ h hb ih => exact .step ih (edge_iff.mp h) (isSome_code.mp hb)
  · intro w
    induction w with
    | start h => exact .start (isSome_code.mpr h)
    | step _ h hb ih => exact .step ih (edge_iff.mpr h) (isSome_code.mpr hb)

theorem count_map_fst {es : List (BlockId × Operand)} (a : BlockId) :
    (es.map Prod.fst).count a = (es.filter fun e => e.1 = a).length := by
  rw [List.count, List.countP_map, List.countP_eq_length_filter]
  exact congrArg List.length (List.filter_congr fun e _ => beq_eq_decide _ _)

theorem phiFindings_eq_nil_iff {preds : List BlockId} {p : Operation Phi} :
    f.phiFindings k preds p = [] ↔ (p.kind.incoming.map Prod.fst).Nodup ∧
      ∀ a, a ∈ p.kind.incoming.map Prod.fst ↔ a ∈ preds := by
  have hfirst : ((p.kind.incoming.filter fun e => !preds.contains e.1).map fun e =>
      f.finding k p.id (.foreignIncoming k e.1)) = [] ↔
      ∀ a ∈ p.kind.incoming.map Prod.fst, a ∈ preds := by
    simp only [List.map_eq_nil_iff, List.filter_eq_nil_iff, Bool.not_eq_true', Bool.not_eq_false,
      List.contains_iff_mem, List.forall_mem_map]
  have hsecond : (preds.filterMap fun pred =>
      let n := (p.kind.incoming.filter fun e => e.1 = pred).length
      if n = 1 then none else some (f.finding k p.id (.incomingCount k pred n))) = [] ↔
      ∀ a ∈ preds, (p.kind.incoming.map Prod.fst).count a = 1 := by
    simp only [List.filterMap_eq_nil_iff, count_map_fst]
    exact forall₂_congr fun a _ => by split <;> simp_all
  rw [phiFindings, List.append_eq_nil_iff, hfirst, hsecond]
  constructor
  · rintro ⟨hin, hone⟩
    refine ⟨List.nodup_iff_count.mpr fun a => ?_, fun a => ⟨hin a, fun ha => ?_⟩⟩
    · by_cases ha : a ∈ p.kind.incoming.map Prod.fst
      · exact Nat.le_of_eq (hone a (hin a ha))
      · rw [List.count_eq_zero_of_not_mem ha]
        exact Nat.zero_le _
    · exact List.count_pos_iff.mp (by rw [hone a ha]; exact Nat.one_pos)
  · rintro ⟨hnodup, hiff⟩
    exact ⟨fun a ha => (hiff a).mp ha, fun a ha => List.count_eq_one_of_mem hnodup ((hiff a).mpr ha)⟩

theorem repeated_eq_nil_iff {l : List OpId} :
    repeated seen l = [] ↔ l.Nodup ∧ ∀ o ∈ l, o ∉ seen := by
  refine ⟨nodup_of_repeated, ?_⟩
  induction l generalizing seen with
  | nil => exact fun _ => rfl
  | cons o l ih =>
    rintro ⟨hl, hseen⟩
    obtain ⟨ho, hl⟩ := List.nodup_cons.mp hl
    rw [repeated, if_neg (mt List.contains_iff_mem.mp (hseen o List.mem_cons_self))]
    refine ih ⟨hl, fun x hx hmem => ?_⟩
    rcases List.mem_cons.mp hmem with rfl | hmem
    · exact ho hx
    · exact hseen x (List.mem_cons_of_mem _ hx) hmem

theorem edgeFindings_eq_nil_iff :
    f.edgeFindings k b = [] ↔ ∀ s ∈ b.successors, f.graph.blocks.contains s = true := by
  simp [edgeFindings, Block.uniqueSuccessors, List.filter_eq_nil_iff, List.mem_eraseDups]

theorem blockFindings_eq_nil_iff {l : List (BlockId × Block)} :
    f.blockFindings seen l = [] ↔ (∀ e ∈ l, f.edgeFindings e.1 e.2 = [] ∧
      e.2.phis.flatMap (f.phiFindings e.1 (f.graph.predecessors e.1)) = []) ∧
      (l.flatMap fun e => e.2.opIds).Nodup ∧ ∀ o ∈ l.flatMap fun e => e.2.opIds, o ∉ seen := by
  constructor
  · exact fun h => ⟨fun e he => blockFindings_of_mem h he, nodup_of_blockFindings h⟩
  · induction l generalizing seen with
    | nil => exact fun _ => rfl
    | cons x l ih =>
      obtain ⟨k, b⟩ := x
      rintro ⟨hblocks, hnodup, hseen⟩
      obtain ⟨⟨hedge, hphi⟩, hblocks⟩ := List.forall_mem_cons.mp hblocks
      rw [List.flatMap_cons] at hnodup hseen
      obtain ⟨hb, hl, hdisj⟩ := List.nodup_append.mp hnodup
      have hrep : repeated seen b.opIds = [] :=
        repeated_eq_nil_iff.mpr ⟨hb, fun o ho => hseen o (List.mem_append_left _ ho)⟩
      simp only [blockFindings, List.append_eq_nil_iff, List.map_eq_nil_iff]
      refine ⟨⟨⟨hedge, hphi⟩, hrep⟩, ih ⟨hblocks, hl, fun o ho hmem => ?_⟩⟩
      rcases List.mem_append.mp hmem with hmem | hmem
      · exact hseen o (List.mem_append_right _ ho) hmem
      · exact hdisj o hmem o ho rfl

theorem redefinitions_eq_nil_iff {seen : List Reg} {ds : List Definition} :
    redefinitions seen ds = [] ↔ (ds.map Definition.reg).Nodup ∧ ∀ d ∈ ds, d.reg ∉ seen := by
  refine ⟨nodup_of_redefinitions, ?_⟩
  induction ds generalizing seen with
  | nil => exact fun _ => rfl
  | cons d ds ih =>
    rintro ⟨hds, hseen⟩
    obtain ⟨hd, hds⟩ := List.nodup_cons.mp hds
    rw [redefinitions, if_neg (mt List.contains_iff_mem.mp (hseen d List.mem_cons_self))]
    refine ih ⟨hds, fun x hx hmem => ?_⟩
    rcases List.mem_cons.mp hmem with he | hmem
    · exact hd (he ▸ List.mem_map_of_mem hx)
    · exact hseen x (List.mem_cons_of_mem _ hx) hmem

theorem entryFindings_eq_nil_iff (hk : f.graph.Keyed) :
    f.entryFindings = [] ↔ ∀ k, ¬ f.proc.Edge k f.graph.entry := by
  have hpred : f.entryFindings = [] ↔ f.graph.predecessors f.graph.entry = [] := by
    unfold entryFindings
    cases f.graph.predecessors f.graph.entry <;> simp
  rw [hpred, List.eq_nil_iff_forall_not_mem]
  exact forall_congr' fun k => by rw [hk.mem_predecessors, edge_iff]

theorem trapFindings_eq_nil_iff :
    f.trapFindings = [] ↔ ∀ t, f.trap = some t → ∃ c, f.proc.code t = some c ∧
      c.exit = .unreachable := by
  unfold trapFindings
  cases f.trap with
  | none => simp
  | some t =>
    simp only [Option.some.injEq, forall_eq', code_eq_some]
    cases ht : f.graph.block? t with
    | none => simp
    | some b => simp [Block.code]

theorem mem_blockDefinitions_iff :
    d ∈ blockDefinitions k b ↔ (∃ p ∈ b.phis, ⟨p.kind.dest, k, 1, some p.id⟩ = d) ∨
      ∃ i o r, b.instructions[i]? = some o ∧ o.kind.dest? = some r ∧ ⟨r, k, i + 2, some o.id⟩ = d := by
  rw [blockDefinitions, List.mem_append, List.mem_map, List.mem_filterMap]
  refine or_congr Iff.rfl ⟨?_, ?_⟩
  · rintro ⟨x, hx, hd⟩
    obtain ⟨i, hi, rfl⟩ := List.mem_mapIdx.mp hx
    obtain ⟨r, hr, rfl⟩ := map_eq_some_iff.mp hd
    exact ⟨i, _, r, List.getElem?_eq_getElem hi, hr, rfl⟩
  · rintro ⟨i, o, r, hi, hr, hd⟩
    obtain ⟨hlt, rfl⟩ := List.getElem?_eq_some_iff.mp hi
    exact ⟨some d, List.mem_mapIdx.mpr ⟨i, hlt, by rw [hr, ← hd]; rfl⟩, rfl⟩

theorem mem_definitions_iff :
    d ∈ f.definitions ↔ (∃ p ∈ f.signature.params, ⟨p.reg, f.graph.entry, 0, none⟩ = d) ∨
      ∃ b, f.graph.block? d.block = some b ∧ d ∈ blockDefinitions d.block b := by
  rw [definitions, List.mem_append, List.mem_map, List.mem_flatMap]
  refine or_congr Iff.rfl ⟨?_, ?_⟩
  · rintro ⟨⟨k, b⟩, he, hd⟩
    obtain ⟨rfl, -⟩ := mem_blockDefinitions hd
    exact ⟨b, Table.get?_eq_some_iff.mpr he, hd⟩
  · rintro ⟨b, hb, hd⟩
    exact ⟨(d.block, b), Table.get?_eq_some_iff.mp hb, hd⟩

/-- The registers that are defined in a block before a use. -/
def Before (k : BlockId) (b : Block) (rank : Option Nat) (before : List Reg) : Prop :=
  ∀ r, r ∈ before ↔ ∃ d ∈ blockDefinitions k b, d.reg = r ∧ (rank.all fun n => d.rank < n) = true

theorem before_end : Before k b none b.defs := by
  intro r
  rw [← map_reg_blockDefinitions k b, List.mem_map]
  simp

theorem before_instruction {done rest : List (Operation Instruction)}
    (hb : b.instructions = done ++ rest) :
    Before k b (some (done.length + 2))
      (b.code.phis.map Phi.dest ++ (done.map Operation.kind).filterMap Instruction.dest?) := by
  intro r
  have hdone : b.code.phis.map Phi.dest ++ (done.map Operation.kind).filterMap Instruction.dest? =
      (blockDefinitions k { b with instructions := done }).map Definition.reg := by
    rw [map_reg_blockDefinitions, ← Block.defs_code]
    rfl
  rw [hdone, List.mem_map]
  refine exists_congr fun d => ?_
  simp only [mem_blockDefinitions_iff, all_some, decide_eq_true_iff]
  constructor
  · rintro ⟨⟨p, hp, rfl⟩ | ⟨i, o, r', hi, hr', rfl⟩, hreg⟩
    · exact ⟨.inl ⟨p, hp, rfl⟩, hreg, by dsimp only; omega⟩
    · have hlt := (List.getElem?_eq_some_iff.mp hi).1
      refine ⟨.inr ⟨i, o, r', ?_, hr', rfl⟩, hreg, by dsimp only; omega⟩
      rw [hb, List.getElem?_append_left hlt, hi]
  · rintro ⟨⟨p, hp, rfl⟩ | ⟨i, o, r', hi, hr', rfl⟩, hreg, hrank⟩
    · exact ⟨.inl ⟨p, hp, rfl⟩, hreg⟩
    · have hlt : i < done.length := by
        dsimp only at hrank
        omega
      rw [hb, List.getElem?_append_left hlt] at hi
      exact ⟨.inr ⟨i, o, r', hi, hr', rfl⟩, hreg⟩

theorem useFinding?_eq_none_iff (hn : f.defs.Nodup) {tree : Dominators} :
    f.useFinding? f.definitions.reverse tree u = none ↔
      ∃ d ∈ f.definitions, d.reg = u.reg ∧ isBefore tree d u = true := by
  rw [← map_reg_definitions] at hn
  unfold useFinding?
  cases hfind : f.definitions.reverse.find? fun d => d.reg = u.reg with
  | none =>
    refine ⟨fun h => (nomatch h), fun ⟨d, hd, hreg, _⟩ => ?_⟩
    exact absurd hreg (by simpa using List.find?_eq_none.mp hfind d (List.mem_reverse.mpr hd))
  | some d =>
    have hd := List.mem_reverse.mp (List.mem_of_find?_eq_some hfind)
    have hreg : d.reg = u.reg := by simpa using List.find?_some hfind
    constructor
    · intro h
      refine ⟨d, hd, hreg, ?_⟩
      by_contra hno
      simp [hno] at h
    · rintro ⟨d', hd', hreg', hbefore⟩
      rw [List.inj_on_of_nodup_map hn hd' hd (hreg'.trans hreg.symm)] at hbefore
      simp [hbefore]

theorem visible_iff (hk : f.graph.Keyed) (he : f.graph.blocks.contains f.graph.entry)
    {before : List Reg} (hb : f.graph.block? u.block = some b)
    (hu : (u.rank.all fun n => 0 < n) = true) (hbefore : Before u.block b u.rank before) :
    (∃ d ∈ f.definitions, d.reg = u.reg ∧ isBefore (Dominators.ofGraph f.graph) d u = true) ↔
      f.proc.Visible u.block before u.reg := by
  constructor
  · rintro ⟨d, hd, hreg, hdu⟩
    rw [isBefore] at hdu
    rcases mem_definitions_iff.mp hd with ⟨p, hp, rfl⟩ | ⟨b', hb', hdef⟩
    · exact .param (hreg ▸ List.mem_map_of_mem hp)
    by_cases heq : d.block = u.block
    · rw [if_pos heq] at hdu
      rw [heq] at hb' hdef
      cases hb.symm.trans hb'
      exact .here ((hbefore u.reg).mpr ⟨d, hdef, hreg, hdu⟩)
    · rw [if_neg heq, Dominators.dominates_iff hk he] at hdu
      refine .above heq (code_eq_some.mpr ⟨b', hb', rfl⟩) ?_ fun l w => hdu l (walk_iff.mp w)
      rw [Block.defs_code, ← map_reg_blockDefinitions d.block b', ← hreg]
      exact List.mem_map_of_mem hdef
  · intro h
    cases h with
    | param h =>
      obtain ⟨p, hp, hpr⟩ := List.mem_map.mp h
      refine ⟨_, mem_definitions_iff.mpr (.inl ⟨p, hp, rfl⟩), hpr, ?_⟩
      rw [isBefore]
      split
      · exact hu
      · exact (Dominators.dominates_iff hk he).mpr fun l w => (walk_iff.mpr w).entry_mem
    | here h =>
      obtain ⟨d, hd, hreg, hdu⟩ := (hbefore u.reg).mp h
      have hblock := (mem_blockDefinitions hd).1
      refine ⟨d, mem_definitions_iff.mpr (.inr ⟨b, hblock ▸ hb, hblock ▸ hd⟩), hreg, ?_⟩
      rw [isBefore, if_pos hblock]
      exact hdu
    | above hne hc hr hdom =>
      obtain ⟨b', hb', rfl⟩ := code_eq_some.mp hc
      rw [Block.defs_code, ← map_reg_blockDefinitions _ b'] at hr
      obtain ⟨d, hd, hreg⟩ := List.mem_map.mp hr
      have hblock := (mem_blockDefinitions hd).1
      refine ⟨d, mem_definitions_iff.mpr (.inr ⟨b', hblock ▸ hb', hblock ▸ hd⟩), hreg, ?_⟩
      rw [isBefore, hblock, if_neg hne]
      exact (Dominators.dominates_iff hk he).mpr fun l w => hdom l (walk_iff.mpr w)

theorem forall_mem_useList {P : Use → Prop} :
    (∀ u ∈ f.useList, P u) ↔ ∀ k b, f.graph.block? k = some b →
      (∀ p ∈ b.phis, ∀ a r, (a, .reg r) ∈ p.kind.incoming → P ⟨r, a, none, p.id⟩) ∧
      (∀ done o rest, b.instructions = done ++ o :: rest → ∀ r ∈ o.kind.uses,
        P ⟨r, k, some (done.length + 2), o.id⟩) ∧
      ∀ r ∈ b.terminator.kind.uses, P ⟨r, k, none, b.terminator.id⟩ := by
  constructor
  · intro h k b hb
    refine ⟨fun p hp a r hr => h _ (mem_useList hb ?_), fun done o rest hsplit r hr =>
      h _ (mem_useList hb (mem_blockUses_instruction hsplit hr)), fun r hr =>
      h _ (mem_useList hb (mem_blockUses_terminator hr))⟩
    refine List.mem_append_left _ (List.mem_append_left _ (List.mem_flatMap.mpr ⟨p, hp, ?_⟩))
    exact List.mem_filterMap.mpr ⟨_, hr, rfl⟩
  · intro h u hu
    obtain ⟨⟨k, b⟩, he, hu⟩ := List.mem_flatMap.mp hu
    obtain ⟨hphis, hbody, hexit⟩ := h k b (Table.get?_eq_some_iff.mpr he)
    rcases List.mem_append.mp hu with hu | hu
    · rcases List.mem_append.mp hu with hu | hu
      · obtain ⟨p, hp, hu⟩ := List.mem_flatMap.mp hu
        obtain ⟨⟨a, o⟩, hin, hu⟩ := List.mem_filterMap.mp hu
        obtain ⟨r, hr, rfl⟩ := map_eq_some_iff.mp hu
        cases o with
        | const c => cases hr
        | reg r' =>
          cases hr
          exact hphis p hp a r hin
      · obtain ⟨us, hus, hu⟩ := List.mem_flatten.mp hu
        obtain ⟨i, hi, rfl⟩ := List.mem_mapIdx.mp hus
        obtain ⟨r, hr, rfl⟩ := List.mem_map.mp hu
        have hsplit : b.instructions =
            b.instructions.take i ++ b.instructions[i] :: b.instructions.drop (i + 1) := by
          rw [List.getElem_cons_drop, List.take_append_drop]
        have hP := hbody _ _ _ hsplit r hr
        rwa [List.length_take, Nat.min_eq_left (Nat.le_of_lt hi)] at hP
    · obtain ⟨r, hr, rfl⟩ := List.mem_map.mp hu
      exact hexit r hr

/-- Nothing is wrong with the body of a function. -/
structure Valid (m : Module) (f : Function) : Prop where
  connected : f.proc.Connected
  scopes : f.proc.Scoped
  ops : f.opIds.Nodup
  defs : f.defs.Nodup
  trap : ∀ t, f.trap = some t → ∃ c, f.proc.code t = some c ∧ c.exit = .unreachable
  calls : ∀ {k c}, f.proc.code k = some c → ∀ {dest callee args},
    .call dest callee args ∈ c.body → ∃ h, m.function? callee = some h ∧
      h.signature.accepts args.length = true ∧ (dest.isSome = true → h.returnsValue = true)
  returns : ∀ {k c}, f.proc.code k = some c → ∀ {v}, c.exit = .ret v → v.isSome = f.returnsValue

theorem callFindings_eq_nil_iff {o : Operation Instruction} :
    callFindings m f k o = [] ↔ ∀ {dest callee args}, o.kind = .call dest callee args →
      ∃ h, m.function? callee = some h ∧ h.signature.accepts args.length = true ∧
        (dest.isSome = true → h.returnsValue = true) := by
  unfold callFindings
  split
  · next dest callee args hk =>
    have hcall : (∀ {dest' callee' args'}, o.kind = .call dest' callee' args' →
        ∃ h, m.function? callee' = some h ∧ h.signature.accepts args'.length = true ∧
          (dest'.isSome = true → h.returnsValue = true)) ↔
        ∃ h, m.function? callee = some h ∧ h.signature.accepts args.length = true ∧
          (dest.isSome = true → h.returnsValue = true) := by
      refine ⟨fun h => h hk, fun h dest' callee' args' hk' => ?_⟩
      cases hk.symm.trans hk'
      exact h
    rw [hcall]
    cases m.function? callee with
    | none => simp
    | some c => cases c.signature.accepts args.length <;> simp
  · next hno =>
    exact ⟨fun _ dest callee args hk => absurd hk (hno dest callee args), fun _ => rfl⟩

theorem returnFindings_eq_nil_iff :
    f.returnFindings k b = [] ↔ ∀ {v}, b.terminator.kind = .ret v → v.isSome = f.returnsValue := by
  unfold returnFindings
  split
  · next v hk => simp [hk]
  · next hno => exact ⟨fun _ v hk => absurd hk (hno v), fun _ => rfl⟩

theorem signatureFindings_eq_nil_iff :
    signatureFindings m f = [] ↔ ∀ k b, f.graph.block? k = some b →
      (∀ o ∈ b.instructions, callFindings m f k o = []) ∧ f.returnFindings k b = [] := by
  simp only [signatureFindings, List.flatMap_eq_nil_iff, List.append_eq_nil_iff, Prod.forall]
  exact forall₂_congr fun k b => by rw [Graph.block?, Table.get?_eq_some_iff]

theorem connected_iff (hk : f.graph.Keyed) :
    f.proc.Connected ↔ f.graph.blocks.contains f.graph.entry = true ∧ f.entryFindings = [] ∧
      ∀ e ∈ f.graph.blocks.entries, f.edgeFindings e.1 e.2 = [] ∧
        e.2.phis.flatMap (f.phiFindings e.1 (f.graph.predecessors e.1)) = [] := by
  have hpreds : ∀ a k, a ∈ f.graph.predecessors k ↔ f.proc.Edge a k := fun a k => by
    rw [hk.mem_predecessors, edge_iff]
  simp only [edgeFindings_eq_nil_iff, List.flatMap_eq_nil_iff, phiFindings_eq_nil_iff,
    entryFindings_eq_nil_iff hk, hpreds, ← isSome_code]
  constructor
  · intro h
    refine ⟨h.entry, h.root, fun e he => ?_⟩
    have hc : f.proc.code e.1 = some e.2.code :=
      code_eq_some.mpr ⟨e.2, Table.get?_eq_some_iff.mpr he, rfl⟩
    exact ⟨fun s hs => h.target ⟨_, hc, hs⟩, fun q hq =>
      ⟨h.once hc _ (List.mem_map_of_mem hq), h.source hc _ (List.mem_map_of_mem hq)⟩⟩
  · rintro ⟨hentry, hroot, hblocks⟩
    have hphis : ∀ {k c}, f.proc.code k = some c → ∀ q ∈ c.phis,
        (q.incoming.map Prod.fst).Nodup ∧ ∀ a, a ∈ q.incoming.map Prod.fst ↔ f.proc.Edge a k := by
      intro k c hc q hq
      obtain ⟨b, hb, rfl⟩ := code_eq_some.mp hc
      obtain ⟨p, hp, rfl⟩ := List.mem_map.mp hq
      exact (hblocks (k, b) (Table.get?_eq_some_iff.mp hb)).2 p hp
    refine ⟨hentry, hroot, ?_, fun hc q hq => (hphis hc q hq).1, fun hc q hq => (hphis hc q hq).2⟩
    rintro a s ⟨c, hc, hs⟩
    obtain ⟨b, hb, rfl⟩ := code_eq_some.mp hc
    exact (hblocks (a, b) (Table.get?_eq_some_iff.mp hb)).1 s hs

theorem scoped_iff (hk : f.graph.Keyed) (hc : f.proc.Connected) (hn : f.defs.Nodup) :
    f.proc.Scoped ↔
      ∀ u ∈ f.useList, f.useFinding? f.definitions.reverse (Dominators.ofGraph f.graph) u = none := by
  have hvisible : ∀ {u : Use} {b : Block} {before : List Reg}, f.graph.block? u.block = some b →
      (u.rank.all fun n => 0 < n) = true → Before u.block b u.rank before →
      (f.useFinding? f.definitions.reverse (Dominators.ofGraph f.graph) u = none ↔
        f.proc.Visible u.block before u.reg) := fun hb hu hbefore =>
    (useFinding?_eq_none_iff hn).trans (visible_iff hk (isSome_code.mp hc.entry) hb hu hbefore)
  rw [forall_mem_useList]
  constructor
  · intro h k b hb
    have hcode : f.proc.code k = some b.code := code_eq_some.mpr ⟨b, hb, rfl⟩
    refine ⟨fun p hp a r hr => ?_, fun done o rest hsplit r hr => ?_, fun r hr => ?_⟩
    · have hq : p.kind ∈ b.code.phis := List.mem_map_of_mem hp
      obtain ⟨c', hc', -⟩ := (hc.source hcode _ hq a).mp (List.mem_map_of_mem hr)
      obtain ⟨b', hb', rfl⟩ := code_eq_some.mp hc'
      exact (hvisible (u := ⟨r, a, none, p.id⟩) hb' rfl before_end).mpr
        (b'.defs_code ▸ h.incoming hcode _ hq hr hc')
    · refine (hvisible (u := ⟨r, k, some (done.length + 2), o.id⟩) hb
        (by simp) (before_instruction hsplit)).mpr ?_
      have hbody : b.code.body =
          done.map Operation.kind ++ o.kind :: rest.map Operation.kind := by
        rw [Block.code, hsplit, List.map_append, List.map_cons]
      exact h.body hcode hbody r hr
    · exact (hvisible (u := ⟨r, k, none, b.terminator.id⟩) hb rfl before_end).mpr
        (b.defs_code ▸ h.exit hcode r hr)
  · intro h
    constructor
    case incoming =>
      intro k c hcode q hq a r hr c' hc'
      obtain ⟨b, hb, rfl⟩ := code_eq_some.mp hcode
      obtain ⟨b', hb', rfl⟩ := code_eq_some.mp hc'
      obtain ⟨p, hp, rfl⟩ := List.mem_map.mp hq
      rw [Block.defs_code]
      exact (hvisible (u := ⟨r, a, none, p.id⟩) hb' rfl before_end).mp ((h k b hb).1 p hp a r hr)
    case body =>
      intro k c hcode pre i post hsplit r hr
      obtain ⟨b, hb, rfl⟩ := code_eq_some.mp hcode
      obtain ⟨done, tail, hinsts, rfl, htail⟩ := List.map_eq_append_iff.mp hsplit
      obtain ⟨o, rest, rfl, rfl, -⟩ := List.map_eq_cons_iff.mp htail
      exact (hvisible (u := ⟨r, k, some (done.length + 2), o.id⟩) hb
        (by simp) (before_instruction hinsts)).mp
        ((h k b hb).2.1 done o rest hinsts r hr)
    case exit =>
      intro k c hcode r hr
      obtain ⟨b, hb, rfl⟩ := code_eq_some.mp hcode
      rw [Block.defs_code]
      exact (hvisible (u := ⟨r, k, none, b.terminator.id⟩) hb rfl before_end).mp
        ((h k b hb).2.2 r hr)

theorem opIds_eq (f : Function) : f.opIds = f.graph.blocks.entries.flatMap fun e => e.2.opIds := by
  rw [opIds, Graph.blockList, Table.values, List.flatMap_map]

theorem graphFindings_eq_nil_iff (hk : f.graph.Keyed) :
    f.graphFindings = [] ↔ f.proc.Connected ∧ f.opIds.Nodup ∧ f.trapFindings = [] := by
  rw [connected_iff hk, opIds_eq, graphFindings]
  split
  · next he =>
    simp only [List.append_eq_nil_iff, blockFindings_eq_nil_iff, he, true_and, List.not_mem_nil,
      not_false_eq_true, implies_true, and_true, and_assoc]
  · next he => simp [he]

theorem findings_eq_nil_iff (hk : f.graph.Keyed) (hd : f.isDeclaration = false) :
    findings m f = [] ↔ f.Valid m := by
  have hsplit : findings m f = [] ↔
      f.graphFindings = [] ∧ f.registerFindings = [] ∧ signatureFindings m f = [] := by
    rw [findings, hd]
    cases f.graphFindings <;> simp
  have hregister : f.registerFindings = [] ↔ f.defs.Nodup ∧
      ∀ u ∈ f.useList, f.useFinding? f.definitions.reverse (Dominators.ofGraph f.graph) u = none := by
    simp only [registerFindings, List.append_eq_nil_iff, List.map_eq_nil_iff,
      redefinitions_eq_nil_iff, map_reg_definitions, List.filterMap_eq_nil_iff, List.not_mem_nil,
      not_false_eq_true, implies_true, and_true]
  have hsignature : signatureFindings m f = [] ↔
      (∀ {k c}, f.proc.code k = some c → ∀ {dest callee args}, .call dest callee args ∈ c.body →
        ∃ h, m.function? callee = some h ∧ h.signature.accepts args.length = true ∧
          (dest.isSome = true → h.returnsValue = true)) ∧
      ∀ {k c}, f.proc.code k = some c → ∀ {v}, c.exit = .ret v → v.isSome = f.returnsValue := by
    simp only [signatureFindings_eq_nil_iff, callFindings_eq_nil_iff, returnFindings_eq_nil_iff]
    constructor
    · intro h
      refine ⟨fun {k c} hc {dest callee args} hm => ?_, fun {k c} hc {v} hv => ?_⟩
      · obtain ⟨b, hb, rfl⟩ := code_eq_some.mp hc
        obtain ⟨o, ho, hk⟩ := List.mem_map.mp hm
        exact (h k b hb).1 o ho hk
      · obtain ⟨b, hb, rfl⟩ := code_eq_some.mp hc
        exact (h k b hb).2 hv
    · rintro ⟨hcalls, hreturns⟩ k b hb
      have hc : f.proc.code k = some b.code := code_eq_some.mpr ⟨b, hb, rfl⟩
      exact ⟨fun o ho {dest callee args} hk => hcalls hc (hk ▸ List.mem_map_of_mem ho),
        fun {v} hv => hreturns hc hv⟩
  rw [hsplit, graphFindings_eq_nil_iff hk, hregister, hsignature, trapFindings_eq_nil_iff]
  constructor
  · rintro ⟨⟨hcon, hops, htrap⟩, ⟨hdefs, huses⟩, hcalls, hreturns⟩
    exact ⟨hcon, (scoped_iff hk hcon hdefs).mpr huses, hops, hdefs, htrap, hcalls, hreturns⟩
  · intro h
    exact ⟨⟨h.connected, h.ops, h.trap⟩, ⟨h.defs, (scoped_iff hk h.connected h.defs).mp h.scopes⟩,
      h.calls, h.returns⟩

end Function

end SiteFusion
