import Mathlib.Data.List.Forall2
import SiteFusion.Fusion.Site
import SiteFusion.Proofs.NumberedTransforms

namespace SiteFusion

open List Option

namespace Site

variable {f g : Function} {head : Outline} {ops : List OpId} {regs : List Reg} {args : List Operand}
  {arity index : Nat} {base : Int64} {callee caller : FuncId} {calls : List OpId}
  {caseSlot slot : Reg} {dest : Option Reg} {ends : Option (BlockId × BlockId)}
  {fused l : List Fused} {joined merged : Bool} {m n : Module} {o : Operation Instruction}
  {op : OpId} {ordinal : UInt64} {other s : Site} {result ty : Ty} {site : Option Site}
  {slots : Option (Reg × Reg)} {tags : Tags} {target : BlockId}

theorem mapTerminator_spare (h : f.Spare head ops regs) (k : BlockId)
    (c : Terminator → Terminator) :
    (f.modifyBlock k fun b => b.mapTerminator c).Spare head ops regs :=
  h.unchanged (fun _ => rfl) (fun b => by simp [Block.opIds_eq, Block.mapTerminator, Operation.map])
    fun _ => rfl

theorem redirect_spare (h : f.Spare head ops regs) (b old target : BlockId) :
    (redirect f b old target).Spare head ops regs :=
  mapTerminator_spare h b _

/-- The register of a call is free once the call is cut out. -/
theorem detach_spare (h : f.Spare head ops regs) (hf : detach f op = .ok (g, ends)) :
    g.Spare head ops regs ∧ (ends.isSome → ∃ o ∈ f.instructions, o.id = op ∧
      g.Spare head ops (o.kind.dest?.toList ++ regs)) := by
  unfold detach at hf
  split at hf
  · cases hf
    exact ⟨h, fun hs => nomatch hs⟩
  · next b i hl =>
    obtain ⟨⟨f₁, tail⟩, h₁, hf⟩ := bind_eq_ok.mp hf
    cases tail with
    | none =>
      cases hf
      exact ⟨h.splitBlock h₁, fun hs => nomatch hs⟩
    | some tail =>
      cases hf
      obtain ⟨source, o, hb, hi, hid⟩ := h.locateInstruction hl
      have hmem : o ∈ f.instructions :=
        Function.mem_instructions.mpr ⟨b, source, hb, mem_of_getElem? hi⟩
      obtain ⟨s, hs, hinst⟩ := Function.splitBlock_first h₁ hb
      have hget : s.instructions[i]? = some o := by
        rw [hinst, getElem?_take_of_lt (Nat.lt_succ_self _), hi]
      have hremoved := (h.splitBlock h₁).remove
        (c := fun b => { b with instructions := b.instructions.eraseIdx i }) hs hget rfl fun _ => rfl
      have hdropped : (f₁.modifyBlock b fun b =>
          { b with instructions := b.instructions.eraseIdx i }).Spare head ops
          (o.kind.dest?.toList ++ regs) := by
        refine hremoved.forget (fun a => ?_) fun _ => Nat.le_refl _
        rw [count_cons]
        omega
      refine ⟨hdropped.forget (fun _ => Nat.le_refl _) fun r => ?_, fun _ => ⟨o, hmem, hid, hdropped⟩⟩
      rw [count_append]
      omega

/-- No other instruction is touched. -/
theorem mem_instructions_detach (h : f.Spare head ops regs) (hd : head.fresh)
    (hf : detach f op = .ok (g, ends)) (ho : o ∈ f.instructions) (hne : o.id ≠ op) :
    o ∈ g.instructions := by
  unfold detach at hf
  split at hf
  · cases hf
    exact ho
  · next b i hl =>
    obtain ⟨⟨f₁, tail⟩, h₁, hf⟩ := bind_eq_ok.mp hf
    have ho₁ := Function.mem_instructions_splitBlock h hd h₁ ho
    cases tail with
    | none =>
      cases hf
      exact ho₁
    | some tail =>
      cases hf
      obtain ⟨source, o', hb, hi, hid⟩ := h.locateInstruction hl
      obtain ⟨s, hs, hinst⟩ := Function.splitBlock_first h₁ hb
      refine Function.mem_instructions_modifyBlock ho₁ fun s' hs' ho' => ?_
      rw [hs] at hs'
      cases hs'
      obtain ⟨j, hj, hoj⟩ := mem_iff_getElem.mp ho'
      refine mem_eraseIdx_iff_getElem.mpr ⟨j, hj, ?_, hoj⟩
      rintro rfl
      have hget : s.instructions[j]? = some o' := by
        rw [hinst, getElem?_take_of_lt (Nat.lt_succ_self _), hi]
      rw [getElem?_eq_getElem hj, hoj] at hget
      cases hget
      exact hne hid

/-- Every instruction can be cut out. -/
theorem isSome_of_detach {fresh : Prop} (h : f.Counted fresh) (ho : o ∈ f.instructions)
    (hf : detach f o.id = .ok (g, ends)) : ends.isSome = true := by
  obtain ⟨b, i, hl⟩ := h.exists_locateInstruction ho
  unfold detach at hf
  rw [hl] at hf
  obtain ⟨⟨f₁, tail⟩, h₁, hf⟩ := bind_eq_ok.mp hf
  obtain ⟨s, o', hs, hi, -⟩ := (Function.counted_iff.mp h).locateInstruction hl
  obtain ⟨hlt, -⟩ := List.getElem?_eq_some_iff.mp hi
  rcases Function.splitBlock_cases h₁ with ⟨-, -, hshort⟩ | ⟨_, _, t, _, _, _, _, _, _, _, rfl, _⟩
  · exact absurd (hshort s hs) (Nat.not_lt.mpr hlt)
  · cases hf
    rfl

theorem mem_instructions_redirect (ho : o ∈ f.instructions) (b old target : BlockId) :
    o ∈ (redirect f b old target).instructions :=
  Function.mem_instructions_modifyBlock ho fun _ _ h => h

theorem detachAll_keeps {ends : Option (List (BlockId × BlockId))} (h : f.Spare head ops regs)
    (hf : detachAll target l f = .ok (g, ends)) : g.Spare head ops regs := by
  induction l generalizing f ends with
  | nil =>
    cases hf
    exact h
  | cons c l ih =>
    obtain ⟨⟨f₁, ends₁⟩, h₁, hf⟩ := bind_eq_ok.mp hf
    have hs := (detach_spare h h₁).1
    cases ends₁ with
    | none =>
      cases hf
      exact hs
    | some e =>
      obtain ⟨pred, tail⟩ := e
      obtain ⟨⟨f₂, more⟩, h₂, hf⟩ := bind_eq_ok.mp hf
      cases hf
      exact ih (redirect_spare hs pred tail target) h₂

/-- All calls are cut out, and all their registers are free. -/
theorem detachAll_frees {ends : Option (List (BlockId × BlockId))} (h : f.Spare head ops regs)
    (hd : head.fresh) (hnodup : (l.map Fused.op).Nodup)
    (hl : ∀ c ∈ l, ∃ o ∈ f.instructions, o.id = c.op ∧ o.kind.dest? = c.dest)
    (hf : detachAll target l f = .ok (g, ends)) :
    ends.isSome = true ∧ g.Spare head ops (l.filterMap Fused.dest ++ regs) := by
  induction l generalizing f regs ends with
  | nil =>
    cases hf
    exact ⟨rfl, h⟩
  | cons c l ih =>
    rw [map_cons, nodup_cons] at hnodup
    obtain ⟨o, ho, hid, hdest⟩ := hl c (mem_cons_self ..)
    obtain ⟨⟨f₁, ends₁⟩, h₁, hf⟩ := bind_eq_ok.mp hf
    rw [← hid] at h₁
    obtain ⟨⟨pred, tail⟩, rfl⟩ := isSome_iff_exists.mp (isSome_of_detach h.counted ho h₁)
    obtain ⟨o', ho', hid', hs⟩ := (detach_spare h h₁).2 rfl
    cases h.counted.instruction_unique ho' ho hid'
    obtain ⟨⟨f₂, more⟩, h₂, hf⟩ := bind_eq_ok.mp hf
    cases hf
    have hl' : ∀ c' ∈ l, ∃ p ∈ (redirect f₁ pred tail target).instructions,
        p.id = c'.op ∧ p.kind.dest? = c'.dest := by
      intro c' hc'
      obtain ⟨p, hp, hpid, hpd⟩ := hl c' (mem_cons_of_mem _ hc')
      refine ⟨p, mem_instructions_redirect (mem_instructions_detach h hd h₁ hp fun he => ?_) ..,
        hpid, hpd⟩
      refine hnodup.1 (List.mem_map.mpr ⟨c', hc', ?_⟩)
      rw [← hpid, he, hid]
    obtain ⟨hsome, hr⟩ := ih (redirect_spare hs pred tail target) hnodup.2 hl' h₂
    refine ⟨by rw [isSome_map, hsome], hr.forget (fun _ => Nat.le_refl _) fun r => ?_⟩
    rw [hdest]
    cases hd : c.dest <;>
      simp only [filterMap_cons, hd, count_append, cons_append, count_cons,
        toList_none, toList_some, count_nil] <;>
      omega

theorem instruction?_eq_some {fresh : Prop} (h : f.Counted fresh) (ho : f.graph.instruction? op = some o) :
    o ∈ f.instructions ∧ o.id = op := by
  obtain ⟨⟨b, i⟩, hl, ho⟩ := bind_eq_some_iff.mp ho
  obtain ⟨s, hs, hi⟩ := bind_eq_some_iff.mp ho
  obtain ⟨s', o', hs', hi', hid⟩ := (Function.counted_iff.mp h).locateInstruction hl
  rw [hs] at hs'
  cases hs'
  rw [hi] at hi'
  cases hi'
  exact ⟨Function.mem_instructions.mpr ⟨b, s, hs, mem_of_getElem? hi⟩, hid⟩

theorem fusedCall?_eq_some {c : Fused} (hc : fusedCall? f callee arity op = some c) :
    ∃ o, f.graph.instruction? op = some o ∧ o.kind = .call c.dest callee c.args ∧
      c.args.length = arity ∧ c.op = op := by
  obtain ⟨o, ho, hc⟩ := bind_eq_some_iff.mp hc
  split at hc
  · next dest c' args hk =>
    split at hc
    · next hcond =>
      cases hc
      obtain ⟨rfl, hlen⟩ := hcond
      exact ⟨o, ho, hk, hlen, rfl⟩
    · cases hc
  · cases hc

theorem mapM_eq_some {α β : Type} {c : α → Option β} {l : List α} {l' : List β}
    (h : l.mapM c = some l') : List.Forall₂ (fun a b => c a = some b) l l' := by
  induction l generalizing l' with
  | nil =>
    rw [mapM_nil] at h
    cases h
    exact .nil
  | cons a l ih =>
    rw [mapM_cons] at h
    obtain ⟨b, hb, h⟩ := bind_eq_some_iff.mp h
    obtain ⟨bs, hbs, h⟩ := bind_eq_some_iff.mp h
    cases h
    exact .cons hb (ih hbs)

theorem nodup_of_eraseDups_eq {l : List OpId} (h : l.eraseDups = l) : l.Nodup := by
  induction l with
  | nil => exact .nil
  | cons a l ih =>
    rw [eraseDups_cons, List.cons.injEq] at h
    have hne : ∀ b ∈ l, b ≠ a := by
      intro b hb
      rw [← h.2, mem_eraseDups, mem_filter] at hb
      simpa using hb.2
    have hkeep : l.filter (fun b => !b == a) = l :=
      filter_eq_self.mpr fun b hb => by simpa using hne b hb
    rw [hkeep] at h
    exact nodup_cons.mpr ⟨fun ha => hne a ha rfl, ih h.2⟩

/-- The collected calls are the given operations, each once, and calls of the callee. -/
theorem collectCalls_eq_some (hc : collectCalls f callee arity calls = some fused) :
    fused.map Fused.op = calls ∧ calls.Nodup ∧
      ∀ c ∈ fused, ∃ o, f.graph.instruction? c.op = some o ∧
        o.kind = .call c.dest callee c.args ∧ c.args.length = arity := by
  unfold collectCalls at hc
  split at hc
  · next hd =>
    have hall := mapM_eq_some hc
    refine ⟨?_, ?_, fun c hmem => ?_⟩
    · clear hc hd
      induction hall with
      | nil => rfl
      | cons hab _ ih =>
        obtain ⟨o, -, -, -, rfl⟩ := fusedCall?_eq_some hab
        rw [map_cons, ih]
    · exact nodup_of_eraseDups_eq hd
    · obtain ⟨a, ha⟩ : ∃ a, fusedCall? f callee arity a = some c := by
        clear hc hd
        induction hall with
        | nil => cases hmem
        | cons hab _ ih =>
          rcases mem_cons.mp hmem with rfl | hmem
          · exact ⟨_, hab⟩
          · exact ih hmem
      obtain ⟨o, ho, hk, hlen, hop⟩ := fusedCall?_eq_some ha
      rw [hop]
      exact ⟨o, ho, hk, hlen⟩
  · cases hc

theorem reloadResult_spare {b : BlockId} {dest : Reg} (h : f.Spare head ops (dest :: regs))
    (hf : reloadResult f b dest slot ty tags = .ok g) : g.Spare head ops regs := by
  obtain ⟨⟨f₁, load⟩, h₁, hf⟩ := bind_eq_ok.mp hf
  cases hf
  obtain ⟨hs, hk⟩ := h.op h₁
  refine Function.Spare.insertAt ?_
  rw [hk]
  exact hs

theorem reloadResults_spare {l : List (Option Reg × BlockId)}
    (h : f.Spare head ops (l.filterMap Prod.fst ++ regs))
    (hf : reloadResults slot ty tags l f = .ok g) : g.Spare head ops regs := by
  induction l generalizing f with
  | nil =>
    cases hf
    exact h
  | cons e l ih =>
    obtain ⟨dest, b⟩ := e
    cases dest with
    | none => exact ih h hf
    | some dest =>
      obtain ⟨f₁, h₁, hf⟩ := bind_eq_ok.mp hf
      exact ih (reloadResult_spare h h₁) hf

theorem argumentPhis_spare {callee : String} {preds : List BlockId} {tys : List Ty}
    {phis : List (Operation Phi)} (h : f.Spare head ops regs)
    (hf : argumentPhis ordinal callee preds fused tys index f = .ok (g, phis, args)) :
    g.Spare head (phis.map Operation.id ++ ops) (phis.map (fun p => p.kind.dest) ++ regs) := by
  induction tys generalizing f index ops regs phis args with
  | nil =>
    cases hf
    exact h
  | cons ty tys ih =>
    obtain ⟨⟨f₁, dest⟩, h₁, hf⟩ := bind_eq_ok.mp hf
    obtain ⟨⟨f₂, phi⟩, h₂, hf⟩ := bind_eq_ok.mp hf
    obtain ⟨⟨f₃, phis', args'⟩, h₃, hf⟩ := bind_eq_ok.mp hf
    cases hf
    obtain ⟨hs, hk⟩ := (h.freshTyped h₁).op h₂
    refine (ih hs h₃).forget (fun a => ?_) fun r => ?_
    · simp only [map_cons, cons_append, count_cons, count_append]
      omega
    · simp only [map_cons, cons_append, count_cons, count_append, hk]
      omega

theorem resultSlots_spare (h : f.Spare head ops regs)
    (hf : resultSlots f result tags = .ok (g, slots)) :
    g.Spare head ops ((slots.map Prod.fst).toList ++ regs) := by
  unfold resultSlots at hf
  split at hf
  · cases hf
    exact h
  · obtain ⟨⟨f₁, reg⟩, h₁, hf⟩ := bind_eq_ok.mp hf
    obtain ⟨⟨f₂, slot⟩, h₂, hf⟩ := bind_eq_ok.mp hf
    cases hf
    exact Spill.createSlot_spare (h.freshTyped h₁) h₂

theorem storeResult_spare {l : List (Operation Instruction)} (h : f.Spare head ops regs)
    (hf : storeResult f tags slots = .ok (g, l)) :
    g.Spare head (l.map Operation.id ++ ops) regs ∧ l.filterMap (fun o => o.kind.dest?) = [] := by
  unfold storeResult at hf
  split at hf
  · cases hf
    exact ⟨h, rfl⟩
  · obtain ⟨⟨f₁, store⟩, h₁, hf⟩ := bind_eq_ok.mp hf
    cases hf
    obtain ⟨hs, hk⟩ := h.op h₁
    refine ⟨hs, ?_⟩
    simp [hk, Instruction.dest?]

theorem count_zip_le (fused : List Fused) (tails : List BlockId) (r : Reg) :
    (((fused.map Fused.dest).zip tails).filterMap Prod.fst).count r ≤
      (fused.filterMap Fused.dest).count r := by
  induction fused generalizing tails with
  | nil => simp
  | cons c fused ih =>
    cases tails with
    | nil => simp
    | cons t tails =>
      have hle := ih tails
      cases hd : c.dest <;>
        simp only [map_cons, zip_cons_cons, filterMap_cons, hd, count_cons] <;>
        omega

theorem fill_spare {target : Function} {block trap : BlockId} {ends : List (BlockId × BlockId)}
    {site : Site} (h : f.Spare head ops (fused.filterMap Fused.dest ++ regs))
    (hf : fill f caller callee target ordinal block trap fused ends = .ok (g, site)) :
    g.Spare head ops regs ∧ ∃ op, site.call = some op ∧ head.floor ≤ op.index ∧
      op.index < g.graph.nextOp := by
  obtain ⟨⟨f₁, id⟩, h₁, hf⟩ := bind_eq_ok.mp hf
  obtain ⟨⟨f₂, idPhi⟩, h₂, hf⟩ := bind_eq_ok.mp hf
  obtain ⟨⟨f₃, phis, args⟩, h₃, hf⟩ := bind_eq_ok.mp hf
  obtain ⟨⟨f₄, slots⟩, h₄, hf⟩ := bind_eq_ok.mp hf
  obtain ⟨⟨f₅, start⟩, h₅, hf⟩ := bind_eq_ok.mp hf
  obtain ⟨⟨f₆, call⟩, h₆, hf⟩ := bind_eq_ok.mp hf
  obtain ⟨⟨f₇, store⟩, h₇, hf⟩ := bind_eq_ok.mp hf
  obtain ⟨⟨f₈, finish⟩, h₈, hf⟩ := bind_eq_ok.mp hf
  obtain ⟨⟨f₉, switch⟩, h₉, hf⟩ := bind_eq_ok.mp hf
  obtain ⟨hs₂, hk₂⟩ := (h.freshTyped h₁).op h₂
  have hs₄ := resultSlots_spare (argumentPhis_spare hs₂ h₃) h₄
  obtain ⟨hs₅, hk₅⟩ := hs₄.op h₅
  obtain ⟨hs₆, hk₆⟩ := hs₅.op h₆
  have hcall : head.floor ≤ call.id.index := by
    obtain ⟨rfl, -⟩ := Function.op_eq_ok h₆
    exact hs₅.floor
  have huse : call.id.index < f₆.graph.nextOp := hs₆.opBound call.id (by
    rw [count_cons_self]
    omega)
  have hend : ∀ g' : Function, g'.Spare (f₆.outline head.once head.fresh) ops regs →
      g'.Spare head ops regs ∧ ∃ op, some call.id = some op ∧ head.floor ≤ op.index ∧
        op.index < g'.graph.nextOp := fun g' hg =>
    ⟨hs₆.since hg, call.id, rfl, hcall, UInt32.lt_of_lt_of_le huse hg.floor⟩
  obtain ⟨hs₇, hd₇⟩ := storeResult_spare hs₆.rebase h₇
  obtain ⟨hs₈, hk₈⟩ := hs₇.op h₈
  obtain ⟨hs₉, -⟩ := hs₈.op h₉
  have hblock : (f₉.modifyBlock block fun b =>
      { b with
        phis := idPhi :: phis
        instructions := start :: call :: store ++ [finish]
        terminator := switch }).Spare (f₆.outline head.once head.fresh) ops
          (fused.filterMap Fused.dest ++ regs) := by
    refine hs₉.modifyBlock (fun _ => rfl) (fun _ => ⟨fun a => ?_, fun r => ?_⟩) fun b _ =>
      ⟨fun a => ?_, fun r => ?_⟩
    · simp only [count_cons, count_append]
      omega
    · simp only [count_append, count_cons]
      omega
    · simp only [Block.count_opIds, map_cons, map_append, map_nil, cons_append,
        count_cons, count_append, count_nil]
      omega
    · have hinsts : (start :: call :: store ++ [finish]).filterMap (fun o => o.kind.dest?) =
          (slots.map Prod.fst).toList := by
        simp only [cons_append, filterMap_cons, filterMap_append, filterMap_nil,
          hk₅, hk₆, hk₈, hd₇]
        cases slots <;> rfl
      simp only [Block.count_defs, hinsts, map_cons, hk₂, count_append, count_cons]
      omega
  cases slots with
  | none =>
    cases hf
    refine hend _ (hblock.forget (fun _ => Nat.le_refl _) fun r => ?_)
    rw [count_append]
    omega
  | some e =>
    obtain ⟨reg, slot⟩ := e
    obtain ⟨f₁₀, h₁₀, hf⟩ := bind_eq_ok.mp hf
    cases hf
    refine hend _ (reloadResults_spare (hblock.forget (fun _ => Nat.le_refl _) fun r => ?_) h₁₀)
    rw [count_append, count_append]
    exact Nat.add_le_add_right (count_zip_le fused (ends.map Prod.snd) r) _

/-- Calls that are there are fused. If the counter of blocks is stale the calls may be gone before
they are cut out, but then the registers they define are of no interest. -/
theorem fuseCalls_spare {target : Function} (h : f.Spare head ops regs)
    (hd : head.once → head.fresh) (hnodup : (fused.map Fused.op).Nodup)
    (hl : ∀ c ∈ fused, ∃ o ∈ f.instructions, o.id = c.op ∧ o.kind.dest? = c.dest)
    (hf : fuseCalls f caller callee target fused = .ok (g, site)) :
    g.Spare head ops regs ∧ (head.fresh → site.isSome = true) ∧ ∀ x, site = some x →
      ∃ op, x.call = some op ∧ head.floor ≤ op.index ∧ op.index < g.graph.nextOp := by
  obtain ⟨ordinal, -, hf⟩ := bind_eq_ok.mp hf
  obtain ⟨⟨f₁, trap⟩, h₁, hf⟩ := bind_eq_ok.mp hf
  obtain ⟨⟨f₂, block⟩, h₂, hf⟩ := bind_eq_ok.mp hf
  obtain ⟨⟨f₃, ends⟩, h₃, hf⟩ := bind_eq_ok.mp hf
  have hs₁ := h.trapBlock h₁
  have hs₂ : (f₂.modifyBlock block fun b => { b with label := some ("fuse." ++ target.name) }).Spare
      head ops regs :=
    (hs₁.createBlock h₂).1.unchanged (fun _ => rfl) (fun _ => rfl) fun _ => rfl
  have hl' : head.fresh → ∀ c ∈ fused, ∃ o ∈ (f₂.modifyBlock block fun b =>
      { b with label := some ("fuse." ++ target.name) }).instructions,
      o.id = c.op ∧ o.kind.dest? = c.dest := by
    intro hfresh c hc
    obtain ⟨o, ho, hid, hdest⟩ := hl c hc
    refine ⟨o, Function.mem_instructions_modifyBlock ?_ fun _ _ ho => ho, hid, hdest⟩
    exact Function.mem_instructions_createBlock hs₁ hfresh h₂
      (Function.mem_instructions_trapBlock h hfresh h₁ ho)
  have hfrees := fun hfresh => detachAll_frees hs₂ hfresh hnodup (hl' hfresh) h₃
  have hs₃ : f₃.Spare head ops (fused.filterMap Fused.dest ++ regs) := by
    by_cases hfresh : head.fresh
    · exact (hfrees hfresh).2
    · exact (detachAll_keeps hs₂ h₃).takeNote fun honce => absurd (hd honce) hfresh
  cases ends with
  | none =>
    cases hf
    refine ⟨detachAll_keeps hs₂ h₃, fun hfresh => ?_, fun x hx => by cases hx⟩
    cases (hfrees hfresh).1
  | some ends =>
    obtain ⟨⟨f₄, site'⟩, h₄, hf⟩ := bind_eq_ok.mp hf
    cases hf
    obtain ⟨hs₄, op, hop⟩ := fill_spare hs₃ h₄
    refine ⟨hs₄, fun _ => rfl, fun x hx => ?_⟩
    cases hx
    exact ⟨op, hop⟩

theorem build_numbered (h : m.Numbered) (hm : build m caller callee calls = .ok (n, site)) :
    n.Numbered := by
  unfold build at hm
  split at hm
  · next target f ht hf =>
    split at hm
    · cases hm
      exact h
    · split at hm
      · cases hm
        exact h
      · next fused hc =>
        obtain ⟨⟨g, site'⟩, h₁, hm⟩ := bind_eq_ok.mp hm
        cases hm
        have hn := h.function caller f hf
        obtain ⟨hops, hnodup, hcalls⟩ := collectCalls_eq_some hc
        have hl : ∀ c ∈ fused, ∃ o ∈ f.instructions, o.id = c.op ∧ o.kind.dest? = c.dest := by
          intro c hmem
          obtain ⟨o, ho, hk, -⟩ := hcalls c hmem
          obtain ⟨ho, hid⟩ := instruction?_eq_some (hn.counted True) ho
          refine ⟨o, ho, hid, ?_⟩
          rw [hk]
          rfl
        have hs := (fuseCalls_spare (Function.numbered_iff.mp hn) (fun _ => trivial) (hops ▸ hnodup)
          hl h₁).1
        exact h.setFunction hf (hs.numbered trivial trivial).1 (congrArg Header.id hs.header)
  · cases hm
    exact h

theorem storeArguments_spare {l : List (Reg × Operand)} {stores : List (Operation Instruction)}
    (h : f.Spare head ops regs) (hf : s.storeArguments l index f = .ok (g, stores)) :
    g.Spare head (stores.map Operation.id ++ ops) regs ∧
      stores.filterMap (fun o => o.kind.dest?) = [] := by
  induction l generalizing f index ops stores with
  | nil =>
    cases hf
    exact ⟨h, rfl⟩
  | cons e l ih =>
    obtain ⟨slot, v⟩ := e
    obtain ⟨⟨f₁, store⟩, h₁, hf⟩ := bind_eq_ok.mp hf
    obtain ⟨⟨f₂, rest⟩, h₂, hf⟩ := bind_eq_ok.mp hf
    cases hf
    obtain ⟨hs, hk⟩ := h.op h₁
    obtain ⟨hs', hd⟩ := ih hs h₂
    refine ⟨hs'.forget (fun a => ?_) fun _ => Nat.le_refl _, ?_⟩
    · simp only [map_cons, cons_append, count_cons, count_append]
      omega
    · rw [filterMap_cons, hk, hd]
      rfl

theorem addCases_spare (h : f.Spare head ops regs) (s : Site) (more : List (Int64 × BlockId)) :
    (s.addCases f more).Spare head ops regs :=
  mapTerminator_spare h s.dispatch _

theorem join_spare (h : f.Spare head ops regs) (ho : o ∈ f.instructions) (hd : o.kind.dest? = dest)
    (hf : s.join f result o.id caseSlot dest args = .ok (g, joined)) : g.Spare head ops regs := by
  obtain ⟨id, -, hf⟩ := bind_eq_ok.mp hf
  obtain ⟨⟨f₁, ends⟩, h₁, hf⟩ := bind_eq_ok.mp hf
  obtain ⟨hs₁, hfree⟩ := detach_spare h h₁
  cases ends with
  | none =>
    cases hf
    exact hs₁
  | some e =>
    obtain ⟨pred, tail⟩ := e
    obtain ⟨⟨f₂, store⟩, h₂, hf⟩ := bind_eq_ok.mp hf
    obtain ⟨⟨f₃, stores⟩, h₃, hf⟩ := bind_eq_ok.mp hf
    obtain ⟨o', ho', hid', hs₁'⟩ := hfree rfl
    cases h.counted.instruction_unique ho' ho hid'
    obtain ⟨hs₂, hk₂⟩ := hs₁'.op h₂
    obtain ⟨hs₃, hd₃⟩ := storeArguments_spare hs₂ h₃
    rw [hd] at hs₃
    have hs₄ : (f₃.modifyBlock pred fun b =>
        { b with instructions := b.instructions ++ store :: stores }).Spare head ops
        (dest.toList ++ regs) := by
      refine hs₃.modifyBlock (fun _ => rfl) (fun _ => ⟨fun a => ?_, fun _ => Nat.le_refl _⟩)
        fun b _ => ⟨fun a => ?_, fun r => ?_⟩
      · simp only [count_append, count_cons]
        omega
      · simp only [Block.count_opIds, map_append, map_cons, count_append,
          count_cons]
        omega
      · have hnew : (store :: stores).filterMap (fun o => o.kind.dest?) = [] := by
          rw [filterMap_cons, hk₂, hd₃]
          rfl
        simp only [Block.count_defs, filterMap_append, hnew, append_nil]
        exact Nat.le_refl _
    have hs₅ := redirect_spare hs₄ pred tail s.head
    dsimp only at hf
    split at hf
    · obtain ⟨f₄, h₄, hf⟩ := bind_eq_ok.mp hf
      cases hf
      exact addCases_spare (reloadResult_spare hs₅ h₄) s _
    · cases hf
      refine (addCases_spare hs₅ s _).forget (fun _ => Nat.le_refl _) fun r => ?_
      rw [count_append]
      omega

/-- A call that is there can join a site. -/
theorem eq_true_of_join {fresh : Prop} (h : f.Counted fresh) (ho : o ∈ f.instructions)
    (hf : s.join f result o.id caseSlot dest args = .ok (g, joined)) : joined = true := by
  obtain ⟨id, -, hf⟩ := bind_eq_ok.mp hf
  obtain ⟨⟨f₁, ends⟩, h₁, hf⟩ := bind_eq_ok.mp hf
  obtain ⟨⟨pred, tail⟩, rfl⟩ := isSome_iff_exists.mp (isSome_of_detach h ho h₁)
  obtain ⟨⟨f₂, store⟩, -, hf⟩ := bind_eq_ok.mp hf
  obtain ⟨⟨f₃, stores⟩, -, hf⟩ := bind_eq_ok.mp hf
  dsimp only at hf
  split at hf
  · obtain ⟨f₄, -, hf⟩ := bind_eq_ok.mp hf
    cases hf
    rfl
  · cases hf
    rfl

theorem extend_numbered (h : m.Numbered) (hm : s.extend m op = .ok (n, joined)) : n.Numbered := by
  unfold extend at hm
  split at hm
  · next caseSlot f _ hf =>
    split at hm
    · cases hm
      exact h
    · split at hm
      · next dest callee args hk =>
        split at hm
        · cases hm
          exact h
        · next c hc =>
          split at hm
          · obtain ⟨⟨g, joined'⟩, h₁, hm⟩ := bind_eq_ok.mp hm
            cases hm
            have hn := h.function _ f hf
            obtain ⟨o, ho, hkind⟩ := map_eq_some_iff.mp hk
            obtain ⟨hmem, hid⟩ := instruction?_eq_some (hn.counted True) ho
            rw [← hid] at h₁
            have hs := join_spare (Function.numbered_iff.mp hn) hmem (by rw [hkind]; rfl) h₁
            exact h.setFunction hf (hs.numbered trivial trivial).1 (congrArg Header.id hs.header)
          · cases hm
            exact h
      · cases hm
        exact h
  · cases hm
    exact h

theorem dest?_raiseStore {i i' : Instruction} (h : raiseStore slot base i = .ok i') :
    i'.dest? = i.dest? := by
  unfold raiseStore at h
  split at h
  · split at h
    · split at h
      · obtain ⟨sum, -, h⟩ := bind_eq_ok.mp h
        cases h
        rfl
      · cases h
        rfl
    · cases h
      rfl
  · cases h
    rfl

theorem raiseStores_eq_ok {l l' : List (Operation Instruction)}
    (h : raiseStores slot base l = .ok l') :
    l'.map Operation.id = l.map Operation.id ∧
      l'.filterMap (fun o => o.kind.dest?) = l.filterMap fun o => o.kind.dest? := by
  induction l generalizing l' with
  | nil =>
    cases h
    exact ⟨rfl, rfl⟩
  | cons o l ih =>
    obtain ⟨i, h₁, h⟩ := bind_eq_ok.mp h
    obtain ⟨rest, h₂, h⟩ := bind_eq_ok.mp h
    cases h
    obtain ⟨hid, hd⟩ := ih h₂
    refine ⟨?_, ?_⟩
    · rw [map_cons, map_cons, hid]
      rfl
    · rw [filterMap_cons, filterMap_cons, hd]
      simp only [Operation.map, dest?_raiseStore h₁]

theorem raiseBlocks_spare {l : List BlockId} (h : f.Spare head ops regs)
    (hf : raiseBlocks slot base l f = .ok g) : g.Spare head ops regs := by
  induction l generalizing f with
  | nil =>
    cases hf
    exact h
  | cons k l ih =>
    unfold raiseBlocks at hf
    split at hf
    · exact ih h hf
    · next b hb =>
      obtain ⟨insts, h₁, hf⟩ := bind_eq_ok.mp hf
      obtain ⟨hid, hd⟩ := raiseStores_eq_ok h₁
      refine ih ?_ hf
      refine h.modifyBlock (fun _ => rfl) (fun hn => ?_) fun b' hb' => ?_
      · rw [hb] at hn
        cases hn
      · rw [hb] at hb'
        cases hb'
        refine ⟨fun a => ?_, fun r => ?_⟩
        · simp only [Block.count_opIds, hid]
          exact Nat.le_refl _
        · simp only [Block.count_defs, hd]
          exact Nat.le_refl _

theorem replaceUses_spare (h : f.Spare head ops regs) (old new : Reg) :
    (replaceUses f old new).Spare head ops regs := by
  refine h.mapAllBlocks (fun _ => rfl) (fun b o => ?_) fun b r => ?_
  · simp [Block.count_opIds, Block.mapPhis, Block.mapInstructions, Block.mapTerminator,
      Operation.map, Function.comp_def]
  · simp [Block.count_defs, Block.mapPhis, Block.mapInstructions, Block.mapTerminator,
      Operation.map, Function.comp_def, filterMap_map, Phi.mapOperands]

theorem replaceAll_spare (h : f.Spare head ops regs) (pairs : List (Reg × Reg)) :
    (replaceAll f pairs).Spare head ops regs := by
  unfold replaceAll
  induction pairs generalizing f with
  | nil => exact h
  | cons p pairs ih => exact ih (replaceUses_spare h p.1 p.2)

theorem dropSlots_spare (h : f.Spare head ops regs) (ordinal : UInt64) :
    (dropSlots f ordinal).Spare head ops regs := by
  refine h.modifyBlock (fun _ => rfl) (fun _ => ⟨fun _ => Nat.le_refl _, fun _ => Nat.le_refl _⟩)
    fun b _ => ⟨fun a => ?_, fun r => ?_⟩
  · simp only [Block.count_opIds]
    refine Nat.add_le_add_right (Nat.add_le_add_right (Nat.add_le_add_left ?_ _) _) _
    exact (filter_sublist.map _).count_le a
  · simp only [Block.count_defs]
    refine Nat.add_le_add_right (Nat.add_le_add_left ?_ _) _
    exact (filter_sublist.filterMap _).count_le r

theorem absorb_spare {own theirs : Reg} (h : f.Spare head ops regs)
    (hf : s.absorb other f own theirs = .ok g) : g.Spare head ops regs := by
  obtain ⟨base, -, hf⟩ := bind_eq_ok.mp hf
  obtain ⟨f₁, h₁, hf⟩ := bind_eq_ok.mp hf
  have hs₁ := raiseBlocks_spare h h₁
  have hredirect : ∀ (l : List BlockId) (f : Function), f.Spare head ops regs →
      (l.foldl (fun f p => redirect f p other.head s.head) f).Spare head ops regs := by
    intro l
    induction l with
    | nil => exact fun f h => h
    | cons p l ih => exact fun f h => ih _ (redirect_spare h p other.head s.head)
  have hs₂ := replaceAll_spare (hredirect (f₁.graph.predecessors other.head) f₁ hs₁)
    (slotPairs s other own theirs)
  have hend : ∀ (f : Function) more, f.Spare head ops regs →
      (dropSlots ((s.addCases f more).modifyBlock other.dispatch fun b =>
        { b with terminator := ⟨b.terminator.id, .unreachable, .empty⟩ }).removeDeadBlocks
        other.ordinal).Spare head ops regs := by
    intro f more hs
    refine dropSlots_spare (Function.Spare.removeDeadBlocks ?_) other.ordinal
    exact (addCases_spare hs s more).unchanged (fun _ => rfl) (fun b => by simp [Block.opIds_eq])
      fun _ => rfl
  dsimp only at hf
  split at hf
  · obtain ⟨more, -, hf⟩ := bind_eq_ok.mp hf
    cases hf
    exact hend _ more hs₂
  · cases hf
    exact hend _ [] hs₂

theorem merge_spare (h : f.Spare head ops regs) (hf : s.merge f other = .ok (g, merged)) :
    g.Spare head ops regs := by
  unfold merge at hf
  split at hf
  · split at hf
    · obtain ⟨f₁, h₁, hf⟩ := bind_eq_ok.mp hf
      cases hf
      exact absorb_spare h h₁
    · cases hf
      exact h
  · cases hf
    exact h

theorem merge_numbered (h : f.Numbered) (hf : s.merge f other = .ok (g, merged)) :
    g.Numbered ∧ g.header = f.header :=
  (merge_spare (Function.numbered_iff.mp h) hf).numbered trivial trivial

end Site

end SiteFusion
