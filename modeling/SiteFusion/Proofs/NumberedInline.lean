import SiteFusion.Proofs.NumberedTransforms
import SiteFusion.Transform.Inline

namespace SiteFusion

open List Option

theorem Instruction.dest?_mapDest (i : Instruction) (h : Reg → Reg) :
    (i.mapDest h).dest? = i.dest?.map h := by
  cases i <;> rfl

namespace Inline

variable {f g callee : Function} {head : Outline} {ops : List OpId} {regs : List Reg} {b : Block}
  {c : Copied} {call : Call} {caller : FuncId} {continuation key : BlockId} {inlined : Inlined}
  {m : Module} {n : Mapping} {o : Operation Instruction} {op : OpId} {result : Ty}
  {trap : Option BlockId}

theorem findCall_eq_ok (h : findCall m caller op = .ok (.ok call)) :
    ∃ f b o, m.function? caller = some f ∧
      f.graph.locateInstruction op = some (call.block, call.index) ∧
      f.graph.block? call.block = some b ∧ b.instructions[call.index]? = some o ∧
      o.kind = .call call.dest call.callee call.args := by
  unfold findCall at h
  split at h
  · cases h
  · next f hf =>
    split at h
    · cases h
    · next block index hl =>
      split at h
      · cases h
      · next o ho =>
        split at h
        · next dest callee args hk =>
          cases h
          obtain ⟨b, hb, hi⟩ := bind_eq_some_iff.mp ho
          exact ⟨f, b, o, hf, hl, hb, hi, hk⟩
        · cases h

/-- Every register of the callee gets a fresh one, and one of its own if it is listed once. -/
theorem renameRegs_spare {l : List (Reg × Ty)} {t t' : Table Reg Operand}
    (h : f.Spare head ops regs) (hf : renameRegs l f t = .ok (g, t')) :
    ∃ fresh : List Reg, g.Spare head ops (fresh ++ regs) ∧
      (∀ r ∈ l.map Prod.fst, ∃ new ∈ fresh, t'.get? r = some (.reg new)) ∧
      ((l.map Prod.fst).Nodup →
        (l.map fun e => t'.get? e.1) = fresh.map (fun r => some (Operand.reg r))) ∧
      ∀ r, r ∉ l.map Prod.fst → t'.get? r = t.get? r := by
  induction l generalizing f t regs with
  | nil =>
    cases hf
    exact ⟨[], h, (fun _ hr => nomatch hr), fun _ => rfl, fun _ _ => rfl⟩
  | cons e l ih =>
    obtain ⟨r, ty⟩ := e
    obtain ⟨⟨f₁, new⟩, h₁, hf⟩ := bind_eq_ok.mp hf
    obtain ⟨fresh, hs, hmem, hmap, hkeep⟩ := ih (h.freshTyped h₁) hf
    refine ⟨new :: fresh, ?_, fun r' hr' => ?_, fun hl => ?_, fun r' hr' => ?_⟩
    · refine hs.forget (fun _ => Nat.le_refl _) fun a => ?_
      simp only [cons_append, count_cons, count_append]
      omega
    · by_cases hl : r' ∈ l.map Prod.fst
      · obtain ⟨new', hnew, hget⟩ := hmem r' hl
        exact ⟨new', mem_cons_of_mem _ hnew, hget⟩
      · refine ⟨new, mem_cons_self, ?_⟩
        have hr : r' = r := (mem_cons.mp hr').resolve_right hl
        rw [hkeep r' hl, Table.get?_insert, if_pos hr]
    · rw [map_cons, nodup_cons] at hl
      rw [map_cons, map_cons, hmap hl.2, hkeep r hl.1, Table.get?_insert, if_pos rfl]
    · rw [map_cons, mem_cons, not_or] at hr'
      rw [hkeep r' hr'.2, Table.get?_insert, if_neg hr'.1]

theorem renameBlocks_spare {l : List BlockId} {t t' : Table BlockId BlockId}
    (h : f.Spare head ops regs) (hf : renameBlocks trap l f t = .ok (g, t')) :
    g.Spare head ops regs := by
  induction l generalizing f t with
  | nil =>
    cases hf
    exact h
  | cons b l ih =>
    unfold renameBlocks at hf
    split at hf
    · obtain ⟨⟨f₁, fresh⟩, h₁, hf⟩ := bind_eq_ok.mp hf
      exact ih (h.trapBlock h₁) hf
    · obtain ⟨⟨f₁, fresh⟩, h₁, hf⟩ := bind_eq_ok.mp hf
      exact ih (h.createBlock h₁).1 hf

theorem copyOps_spare {κ : Type} {c : κ → κ} {l l' : List (Operation κ)}
    (h : f.Spare head ops regs) (hf : copyOps c l f = .ok (g, l')) :
    g.Spare head (l'.map Operation.id ++ ops) regs ∧
      l'.map Operation.kind = l.map fun o => c o.kind := by
  induction l generalizing f ops l' with
  | nil =>
    cases hf
    exact ⟨h, rfl⟩
  | cons o l ih =>
    obtain ⟨⟨f₁, o'⟩, h₁, hf⟩ := bind_eq_ok.mp hf
    obtain ⟨⟨f₂, rest⟩, h₂, hf⟩ := bind_eq_ok.mp hf
    cases hf
    obtain ⟨hs, hk⟩ := h.op h₁
    obtain ⟨hs', hmap⟩ := ih hs h₂
    refine ⟨hs'.forget (fun a => ?_) fun _ => Nat.le_refl _, ?_⟩
    · simp only [map_cons, cons_append, count_append, count_cons]
      omega
    · rw [map_cons, map_cons, hk, hmap]

theorem copyBlock_spare (h : f.Spare head ops (b.defs.map n.reg ++ regs))
    (hf : copyBlock n result continuation key b f = .ok (g, c)) : g.Spare head ops regs := by
  obtain ⟨⟨f₁, phis⟩, h₁, hf⟩ := bind_eq_ok.mp hf
  obtain ⟨⟨f₂, insts⟩, h₂, hf⟩ := bind_eq_ok.mp hf
  obtain ⟨⟨f₃, term⟩, h₃, hf⟩ := bind_eq_ok.mp hf
  cases hf
  obtain ⟨hs₁, hp⟩ := copyOps_spare h h₁
  obtain ⟨hs₂, hi⟩ := copyOps_spare hs₁ h₂
  obtain ⟨hs₃, -⟩ := hs₂.op h₃
  have hdefs : (phis.map fun p => p.kind.dest) ++ insts.filterMap (fun o => o.kind.dest?) =
      b.defs.map n.reg := by
    have hpd : (phis.map fun p => p.kind.dest) = (phis.map Operation.kind).map Phi.dest := by simp
    have hid : insts.filterMap (fun o => o.kind.dest?) =
        (insts.map Operation.kind).filterMap Instruction.dest? := by
      rw [filterMap_map]
      rfl
    rw [hpd, hid, hp, hi, Block.defs, map_append, map_filterMap, List.map_map,
      filterMap_map, List.map_map]
    congr 1
    refine congrArg (fun c => List.filterMap c b.instructions) (funext fun o => ?_)
    simp [Mapping.instruction, Instruction.dest?_mapDest]
  refine hs₃.modifyBlock (fun _ => rfl) (fun _ => ⟨fun a => ?_, fun r => ?_⟩) fun t _ =>
    ⟨fun a => ?_, fun r => ?_⟩
  · simp only [count_cons, count_append]
    omega
  · rw [count_append]
    omega
  · simp only [Block.count_opIds, count_cons, count_append, count_nil]
    omega
  · rw [← hdefs]
    simp only [Block.count_defs, count_append]
    omega

theorem copyBlocks_spare {l : List (BlockId × Block)}
    (h : f.Spare head ops ((l.flatMap fun e => e.2.defs.map n.reg) ++ regs))
    (hf : copyBlocks n result continuation trap l f = .ok (g, c)) : g.Spare head ops regs := by
  induction l generalizing f c with
  | nil =>
    cases hf
    exact h
  | cons e l ih =>
    obtain ⟨key, b⟩ := e
    rw [flatMap_cons, append_assoc] at h
    unfold copyBlocks at hf
    split at hf
    · refine ih (h.forget (fun _ => Nat.le_refl _) fun r => ?_) hf
      simp only [count_append]
      omega
    · obtain ⟨⟨f₁, c₁⟩, h₁, hf⟩ := bind_eq_ok.mp hf
      obtain ⟨⟨f₂, c₂⟩, h₂, hf⟩ := bind_eq_ok.mp hf
      cases hf
      exact ih (copyBlock_spare h h₁) h₂

theorem count_filter_not {κ β : Type} [DecidableEq β] (l : List κ) (p : κ → Bool)
    (c : κ → Option β) (a : β) :
    ((l.filter p).filterMap c).count a + ((l.filter fun o => !p o).filterMap c).count a =
      (l.filterMap c).count a := by
  induction l with
  | nil => simp
  | cons o l ih =>
    cases hp : p o <;> cases hc : c o <;>
      simp only [filter_cons, hp, Bool.not_false, Bool.not_true, ↓reduceIte,
        Bool.false_eq_true, filterMap_cons, hc, count_cons] <;> omega

theorem hoistAllocas_spare (h : f.Spare head ops regs) (key : BlockId) :
    (hoistAllocas f key).Spare head ops regs := by
  unfold hoistAllocas
  split
  · exact h
  · next b hb =>
    let allocas := b.instructions.filter fun o => o.kind.isAlloca
    have hs : (f.modifyBlock key fun b =>
        { b with instructions := b.instructions.filter fun o => !o.kind.isAlloca }).Spare head
        (allocas.map Operation.id ++ ops) (allocas.filterMap (fun o => o.kind.dest?) ++ regs) := by
      refine h.modifyBlock (fun _ => rfl) (fun hn => ?_) fun b' hb' => ?_
      · rw [hb] at hn
        cases hn
      · rw [hb] at hb'
        cases hb'
        refine ⟨fun a => ?_, fun r => ?_⟩
        · have hc := count_filter_not b.instructions (fun o => o.kind.isAlloca)
            (fun o => some o.id) a
          simp only [filterMap_eq_map'] at hc
          simp only [Block.count_opIds, count_append, allocas]
          omega
        · have hc := count_filter_not b.instructions (fun o => o.kind.isAlloca)
            (fun o => o.kind.dest?) r
          simp only [Block.count_defs, count_append, allocas]
          omega
    refine hs.modifyBlock (fun _ => rfl) (fun _ => ⟨fun a => ?_, fun r => ?_⟩) fun e _ =>
      ⟨fun a => ?_, fun r => ?_⟩
    · rw [count_append]
      omega
    · rw [count_append]
      omega
    · have hc := count_map_take_drop e.instructions Operation.id e.allocaCount a
      simp only [Block.count_opIds, map_append, count_append, allocas]
      omega
    · have hc := count_filterMap_take_drop e.instructions (fun o => o.kind.dest?) e.allocaCount r
      simp only [Block.count_defs, filterMap_append, count_append, allocas]
      omega

theorem bindResult_spare {dest : Reg} {returns : List (BlockId × Operand)}
    (h : f.Spare head ops (dest :: regs)) (hf : bindResult f continuation dest returns = .ok g) :
    g.Spare head ops regs := by
  unfold bindResult at hf
  split at hf
  · obtain ⟨⟨f₁, o⟩, h₁, hf⟩ := bind_eq_ok.mp hf
    cases hf
    obtain ⟨hs, hk⟩ := h.op h₁
    refine Function.Spare.insertAt ?_
    rw [hk]
    exact hs
  · obtain ⟨⟨f₁, o⟩, h₁, hf⟩ := bind_eq_ok.mp hf
    cases hf
    obtain ⟨hs, hk⟩ := h.op h₁
    refine Function.Spare.insertAt ?_
    rw [hk]
    exact hs
  · obtain ⟨⟨f₁, p⟩, h₁, hf⟩ := bind_eq_ok.mp hf
    cases hf
    obtain ⟨hs, hk⟩ := h.op h₁
    refine hs.modifyBlock (fun _ => rfl) (fun _ => ⟨fun a => ?_, fun r => ?_⟩) fun b _ =>
      ⟨fun a => ?_, fun r => ?_⟩
    · rw [count_cons]
      omega
    · rw [count_cons]
      omega
    · simp only [Block.count_opIds, Block.pushPhi, map_append, map_cons, map_nil,
        count_append, count_cons, count_nil]
      omega
    · simp only [Block.count_defs, Block.pushPhi, map_append, map_cons, map_nil,
        count_append, count_cons, count_nil, hk]
      omega

theorem map_fst_blockResults (callee : Function) (b : Block) :
    (blockResults callee b).map Prod.fst = b.defs := by
  simp only [blockResults, Block.defs, map_append, List.map_map, map_filterMap]
  congr 1
  refine congrArg (fun c => List.filterMap c b.instructions) (funext fun o => ?_)
  cases o.kind.dest? <;> rfl

/-- A call and its register are out of place once the call is cut off. -/
theorem dropCall_spare {index : Nat} {s : Block} (h : f.Spare head ops regs)
    (ho : b.instructions[index]? = some o) (hs : f.graph.block? key = some s)
    (hi : s.instructions = b.instructions.take (index + 1)) :
    (f.modifyBlock key fun b => { b with instructions := b.instructions.take index }).Spare head
      (o.id :: ops) (o.kind.dest?.toList ++ regs) := by
  have hlast : s.instructions[index]? = some o := by
    rw [hi, getElem?_take_of_lt (Nat.lt_succ_self _), ho]
  have herase : s.instructions.take index = s.instructions.eraseIdx index := by
    rw [eraseIdx_eq_take_drop_succ, drop_of_length_le, append_nil]
    rw [hi]
    exact length_take_le _ _
  refine h.remove (c := fun b => { b with instructions := b.instructions.take index }) hs hlast
    ?_ fun _ => rfl
  rw [herase]

theorem renamed_spare {operands : Table Reg Operand} (blocks : Table BlockId BlockId)
    {fresh : List Reg} (h : f.Spare head ops (fresh ++ regs)) (hc : head.once → callee.Numbered)
    (hmem : ∀ r ∈ (callee.graph.blockList.flatMap (blockResults callee)).map Prod.fst,
      ∃ new ∈ fresh, operands.get? r = some (.reg new))
    (hmap : ((callee.graph.blockList.flatMap (blockResults callee)).map Prod.fst).Nodup →
      ((callee.graph.blockList.flatMap (blockResults callee)).map fun e => operands.get? e.1) =
        fresh.map fun r => some (Operand.reg r)) :
    f.Spare head ops ((callee.graph.blocks.entries.flatMap fun e =>
      e.2.defs.map (Mapping.reg ⟨operands, blocks⟩)) ++ regs) := by
  have hl : (callee.graph.blocks.entries.flatMap fun e =>
      e.2.defs.map (Mapping.reg ⟨operands, blocks⟩)) =
      (callee.graph.blockList.flatMap (blockResults callee)).map fun e =>
        Mapping.reg ⟨operands, blocks⟩ e.1 := by
    simp only [Graph.blockList, Table.values, flatMap_map, map_flatMap]
    refine congrArg (fun c => List.flatMap c callee.graph.blocks.entries) (funext fun e => ?_)
    rw [← map_fst_blockResults callee, List.map_map]
    rfl
  have hget : ∀ e : Reg × Ty, Mapping.reg ⟨operands, blocks⟩ e.1 =
      ((operands.get? e.1).bind Operand.reg?).getD e.1 := fun _ => rfl
  rw [hl]
  refine h.takeNote fun ho r => ?_
  have hnodup : ((callee.graph.blockList.flatMap (blockResults callee)).map Prod.fst).Nodup := by
    rw [map_flatMap]
    simp only [map_fst_blockResults]
    exact (nodup_append.mp (hc ho).defOnce).2.1
  have hcopy : ((callee.graph.blockList.flatMap (blockResults callee)).map fun e =>
      Mapping.reg ⟨operands, blocks⟩ e.1) = fresh := by
    have hsome := congrArg (List.filterMap fun o => o.bind Operand.reg?) (hmap hnodup)
    simp only [filterMap_map, Function.comp_def, bind_some, Operand.reg?,
      filterMap_some] at hsome
    rw [← hsome, ← filterMap_eq_map]
    refine filterMap_congr fun e he => ?_
    obtain ⟨new, -, hop⟩ := hmem e.1 (List.mem_map_of_mem he)
    simp [hget, hop, Operand.reg?]
  exact Nat.le_of_eq (congrArg (fun l => (l ++ regs).count r) hcopy)

theorem splice_eq_ok (hg : splice f callee call = .ok (g, some inlined)) :
    ∃ f₁ f₂ f₃ f₄ f₅ tail operands blocks copied,
      f.splitBlock call.block (call.index + 1) = .ok (f₁, some tail) ∧
      renameRegs (callee.graph.blockList.flatMap (blockResults callee))
        (f₁.modifyBlock call.block fun b => { b with instructions := b.instructions.take call.index })
        (bindParams callee.signature.params call.args .empty) = .ok (f₂, operands) ∧
      renameBlocks (sharedTrap? callee) callee.graph.blocks.keys f₂ .empty = .ok (f₃, blocks) ∧
      copyBlocks ⟨operands, blocks⟩ callee.signature.result tail (sharedTrap? callee)
        callee.graph.blocks.entries f₃ = .ok (f₄, copied) ∧
      (call.dest = none ∧
          f₅ = hoistAllocas f₄ ((⟨operands, blocks⟩ : Mapping).label callee.graph.entry) ∨
        ∃ d, call.dest = some d ∧
          bindResult (hoistAllocas f₄ ((⟨operands, blocks⟩ : Mapping).label callee.graph.entry)) tail d
            copied.returns = .ok f₅) ∧ inlined.cloned = copied.ops ∧
      g = f₅.modifyBlock call.block fun b => b.mapTerminator fun t =>
        t.redirect tail ((⟨operands, blocks⟩ : Mapping).label callee.graph.entry) := by
  obtain ⟨⟨f₁, tail'⟩, h₁, hg⟩ := bind_eq_ok.mp hg
  cases tail' with
  | none => cases hg
  | some tail =>
    dsimp only at hg
    obtain ⟨⟨f₂, operands⟩, h₂, hg⟩ := bind_eq_ok.mp hg
    obtain ⟨⟨f₃, blocks⟩, h₃, hg⟩ := bind_eq_ok.mp hg
    obtain ⟨⟨f₄, copied⟩, h₄, hg⟩ := bind_eq_ok.mp hg
    split at hg
    · next hd =>
      cases hg
      exact ⟨f₁, f₂, f₃, f₄, _, tail, operands, blocks, copied, h₁, h₂, h₃, h₄, .inl ⟨hd, rfl⟩,
        rfl, rfl⟩
    · next d hd =>
      obtain ⟨f₅, h₅, hg⟩ := bind_eq_ok.mp hg
      cases hg
      exact ⟨f₁, f₂, f₃, f₄, f₅, tail, operands, blocks, copied, h₁, h₂, h₃, h₄,
        .inr ⟨d, hd, h₅⟩, rfl, rfl⟩

theorem splice_spare (h : f.Spare head ops regs) (hc : head.once → callee.Numbered)
    (hb : f.graph.block? call.block = some b) (ho : b.instructions[call.index]? = some o)
    (hk : o.kind.dest? = call.dest) (hf : splice f callee call = .ok (g, some inlined)) :
    g.Spare head (o.id :: ops) regs := by
  obtain ⟨f₁, f₂, f₃, f₄, f₅, tail, operands, blocks, copied, h₁, h₂, h₃, h₄, h₅, -, rfl⟩ :=
    splice_eq_ok hf
  have hs₀ : (f₁.modifyBlock call.block fun b =>
      { b with instructions := b.instructions.take call.index }).Spare head (o.id :: ops)
      (call.dest.toList ++ regs) := by
    obtain ⟨s, hs, hi⟩ := Function.splitBlock_first h₁ hb
    rw [← hk]
    exact dropCall_spare (h.splitBlock h₁) ho hs hi
  obtain ⟨fresh, hs₂, hmem, hmap, -⟩ := renameRegs_spare hs₀ h₂
  have hs₃ := renamed_spare blocks (renameBlocks_spare hs₂ h₃) hc hmem hmap
  have hs₄ := hoistAllocas_spare (copyBlocks_spare hs₃ h₄)
    ((⟨operands, blocks⟩ : Mapping).label callee.graph.entry)
  have hs₅ : f₅.Spare head (o.id :: ops) regs := by
    rcases h₅ with ⟨hd, rfl⟩ | ⟨d, hd, h₅⟩
    · rw [hd] at hs₄
      exact hs₄
    · rw [hd] at hs₄
      exact bindResult_spare hs₄ h₅
  exact hs₅.unchanged (fun _ => rfl) (fun b => by simp [Block.opIds_eq, Block.mapTerminator,
    Operation.map]) fun b => rfl

/-- A call that is inlined is one of a function with a body. -/
theorem inlineCall_eq_ok {n : Module} (hm : inlineCall m caller op = .ok (.ok (n, inlined))) :
    ∃ f callee call b o g, m.function? caller = some f ∧ m.function? call.callee = some callee ∧
      callee.isDeclaration = false ∧
      f.graph.locateInstruction op = some (call.block, call.index) ∧
      f.graph.block? call.block = some b ∧ b.instructions[call.index]? = some o ∧
      o.kind = .call call.dest call.callee call.args ∧
      splice f callee call = .ok (g, some inlined) ∧
      n = m.setFunction caller (adoptCollector g callee) := by
  obtain ⟨found, h₁, hm⟩ := bind_eq_ok.mp hm
  cases found with
  | error e => cases hm
  | ok call =>
    obtain ⟨f, b, o, hf, hl, hb, ho, hk⟩ := findCall_eq_ok h₁
    dsimp only at hm
    rw [hf] at hm
    cases hc : m.function? call.callee with
    | none =>
      rw [hc] at hm
      cases hm
    | some callee =>
      rw [hc] at hm
      dsimp only at hm
      split at hm
      · cases hm
      · next hfault =>
        obtain ⟨⟨g, done⟩, h₂, hm⟩ := bind_eq_ok.mp hm
        cases done with
        | none => cases hm
        | some inlined' =>
          cases hm
          refine ⟨f, callee, call, b, o, g, hf, hc, ?_, hl, hb, ho, hk, h₂, rfl⟩
          dsimp only [fault?] at hfault
          split at hfault
          · cases hfault
          · split at hfault
            · cases hfault
            · next hd => exact Bool.eq_false_iff.mpr hd

theorem graph_adoptCollector (f callee : Function) : (adoptCollector f callee).graph = f.graph := by
  unfold adoptCollector
  split
  · rfl
  · rfl

theorem adoptCollector_counted {fresh : Prop} (h : f.Counted fresh) (callee : Function) :
    (adoptCollector f callee).Counted fresh := by
  unfold adoptCollector
  split
  · exact ⟨h.blockKey, h.blockBound, h.opBound, h.opOnce⟩
  · exact h

theorem adoptCollector_numbered (h : f.Numbered) (callee : Function) :
    (adoptCollector f callee).Numbered ∧ (adoptCollector f callee).id = f.id := by
  unfold adoptCollector
  split
  · exact ⟨⟨h.blockKey, h.blockBound, h.opBound, h.defBound, h.opOnce, h.defOnce⟩, rfl⟩
  · exact ⟨h, rfl⟩

theorem inlineCall_numbered {n : Module} (h : m.Numbered)
    (hm : inlineCall m caller op = .ok (.ok (n, inlined))) : n.Numbered := by
  obtain ⟨f, callee, call, b, o, g, hf, hc, -, -, hb, ho, hk, hg, rfl⟩ := inlineCall_eq_ok hm
  have hs := splice_spare (Function.numbered_iff.mp (h.function caller f hf))
    (fun _ => h.function _ callee hc) hb ho (by rw [hk]; rfl) hg
  obtain ⟨hn, hid⟩ := adoptCollector_numbered (hs.numbered trivial trivial).1 callee
  exact h.setFunction hf hn (hid.trans (congrArg Header.id hs.header))

end Inline

end SiteFusion
