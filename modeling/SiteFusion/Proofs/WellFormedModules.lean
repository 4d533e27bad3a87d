import SiteFusion.Proofs.PipelineIntegrity
import SiteFusion.Proofs.ValidRuns

namespace SiteFusion

open List Option

namespace Function

variable {m : Module} {f : Function} {b : Block} {k : BlockId} {seen : List OpId}

theorem nodup_of_repeated {l : List OpId} (h : repeated seen l = []) :
    l.Nodup ∧ ∀ o ∈ l, o ∉ seen := by
  induction l generalizing seen with
  | nil => exact ⟨nodup_nil, fun _ ho => absurd ho not_mem_nil⟩
  | cons o l ih =>
    rw [repeated] at h
    split at h
    · cases h
    · next hseen =>
      obtain ⟨hl, hdis⟩ := ih h
      refine ⟨nodup_cons.mpr ⟨fun ho => hdis o ho mem_cons_self, hl⟩,
        forall_mem_cons.mpr ⟨mt contains_iff_mem.mpr hseen, fun p hp hs => ?_⟩⟩
      exact hdis p hp (mem_cons_of_mem o hs)

theorem nodup_of_blockFindings {l : List (BlockId × Block)} (h : f.blockFindings seen l = []) :
    (l.flatMap fun e => e.2.opIds).Nodup ∧ ∀ o ∈ l.flatMap fun e => e.2.opIds, o ∉ seen := by
  induction l generalizing seen with
  | nil => exact ⟨nodup_nil, fun _ ho => absurd ho not_mem_nil⟩
  | cons x l ih =>
    obtain ⟨k, b⟩ := x
    simp only [blockFindings, append_eq_nil_iff, map_eq_nil_iff] at h
    obtain ⟨hb, hbs⟩ := nodup_of_repeated h.1.2
    obtain ⟨hl, hls⟩ := ih h.2
    rw [flatMap_cons]
    refine ⟨nodup_append.mpr ⟨hb, hl, fun o ho p hp hop => ?_⟩, fun o ho => ?_⟩
    · exact hls p hp (mem_append_right _ (hop ▸ ho))
    · rcases mem_append.mp ho with ho | ho
      · exact hbs o ho
      · exact fun hs => hls o ho (mem_append_left _ hs)

theorem nodup_of_redefinitions {seen : List Reg} {ds : List Definition}
    (h : redefinitions seen ds = []) :
    (ds.map Definition.reg).Nodup ∧ ∀ d ∈ ds, d.reg ∉ seen := by
  induction ds generalizing seen with
  | nil => exact ⟨nodup_nil, fun _ hd => absurd hd not_mem_nil⟩
  | cons d ds ih =>
    rw [redefinitions] at h
    split at h
    · cases h
    · next hseen =>
      obtain ⟨hds, hdis⟩ := ih h
      refine ⟨nodup_cons.mpr ⟨fun hd => ?_, hds⟩,
        forall_mem_cons.mpr ⟨mt contains_iff_mem.mpr hseen, fun p hp hs => ?_⟩⟩
      · obtain ⟨p, hp, he⟩ := List.mem_map.mp hd
        exact hdis p hp (he ▸ mem_cons_self)
      · exact hdis p hp (mem_cons_of_mem _ hs)

theorem map_reg_blockDefinitions (k : BlockId) (b : Block) :
    (blockDefinitions k b).map Definition.reg = b.defs := by
  have hinstructions : ∀ (l : List (Operation Instruction)) (n : Nat),
      ((l.mapIdx fun i o => o.kind.dest?.map fun d =>
        Definition.mk d k (i + n) (some o.id)).filterMap fun d => d).map Definition.reg =
        l.filterMap fun o => o.kind.dest? := by
    intro l
    induction l with
    | nil => exact fun _ => rfl
    | cons o l ih =>
      intro n
      have hshift : (fun i o => (o.kind.dest?.map fun d => Definition.mk d k (i + 1 + n) (some o.id)) :
          Nat → Operation Instruction → Option Definition) =
          fun i o => o.kind.dest?.map fun d => Definition.mk d k (i + (n + 1)) (some o.id) := by
        funext i o
        rw [Nat.add_assoc, Nat.add_comm 1 n]
      rw [mapIdx_cons, hshift]
      cases hd : o.kind.dest? with
      | none => simp [hd, ih]
      | some d => simp [hd, ih]
  rw [blockDefinitions, Block.defs, map_append, List.map_map, hinstructions]
  rfl

theorem map_reg_definitions (f : Function) : f.definitions.map Definition.reg = f.defs := by
  rw [definitions, defs, map_append, List.map_map, map_flatMap]
  congr 1
  rw [Graph.blockList, Table.values, flatMap_map]
  exact flatMap_congr fun x _ => map_reg_blockDefinitions x.1 x.2

/-- Blocks are listed under their own numbers, and all numbers come from their counters. -/
structure Bounded (f : Function) : Prop where
  blockKey : ∀ k b, f.graph.block? k = some b → b.id = k
  blockBound : ∀ k b, f.graph.block? k = some b → k.index < f.graph.nextBlock
  opBound : ∀ o ∈ f.opIds, o.index < f.graph.nextOp
  defBound : ∀ r ∈ f.defs, r.index < f.nextReg

instance (f : Function) : Decidable f.Bounded :=
  decidable_of_iff
    ((∀ k b, f.graph.blocks.get? k = some b → b.id = k ∧ k.index < f.graph.nextBlock) ∧
      (∀ o ∈ f.opIds, o.index < f.graph.nextOp) ∧ ∀ r ∈ f.defs, r.index < f.nextReg)
    ⟨fun ⟨h, ho, hd⟩ => ⟨fun k b hb => (h k b hb).1, fun k b hb => (h k b hb).2, ho, hd⟩,
      fun h => ⟨fun k b hb => ⟨h.blockKey k b hb, h.blockBound k b hb⟩, h.opBound, h.defBound⟩⟩

theorem Bounded.numbered (h : f.Bounded) (hm : m.findings = []) {key : FuncId}
    (hf : m.function? key = some f) (hd : f.isDeclaration = false) : f.Numbered := by
  obtain ⟨-, -, hblocks, hreg, -⟩ := parts_of_findings hm hf hd
  refine ⟨h.blockKey, h.blockBound, h.opBound, h.defBound, ?_, ?_⟩
  · rw [opIds, Graph.blockList, Table.values, flatMap_map]
    exact (nodup_of_blockFindings hblocks).1
  · rw [← map_reg_definitions]
    exact (nodup_of_redefinitions (map_eq_nil_iff.mp (append_eq_nil_iff.mp hreg).1)).1

end Function

end SiteFusion
