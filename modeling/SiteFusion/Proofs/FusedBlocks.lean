import SiteFusion.Proofs.SiteSteps
import SiteFusion.Proofs.SpillBlocks

namespace SiteFusion

open List Option

namespace Site

variable {f g : Function} {o : Operation Instruction} {target pred tail k : BlockId} {b : Block}
  {block trap : BlockId} {callee caller : FuncId} {fused : List Fused}
  {l : List (Option Reg × BlockId)} {ops : List OpId} {ordinal : UInt64} {site : Site} {slot : Reg}
  {tags : Tags} {ty : Ty}

def follow (s : Block) (pred tail k : BlockId) (b : Block) : Block :=
  if s.successors.contains k then b.mapPhis fun p => p.retarget pred tail else b

/-- A function before and after an instruction was cut out of block `pred`. What comes after it is
in block `tail`, and `pred` goes to `target`. -/
structure Cut (f : Function) (o : Operation Instruction) (target pred tail : BlockId)
    (g : Function) : Prop where
  numbered : g.Numbered
  header : g.header = f.header
  trap : g.trap = f.trap
  counter : g.nextReg = f.nextReg
  fresh : f.graph.block? tail = none
  blocks : ∃ s before after branch, f.graph.block? pred = some s ∧
    s.instructions = before ++ o :: after ∧ ∀ k, g.graph.block? k =
      (if k = pred then some { s with
          instructions := before
          terminator := ⟨branch, .branch target, .empty⟩ }
        else if k = tail then some ⟨tail, none, [], after, s.terminator⟩
        else f.graph.block? k).map (follow s pred tail k)

theorem follow_instructions (s b : Block) : (follow s pred tail k b).instructions = b.instructions := by
  unfold follow
  split <;> rfl

theorem follow_terminator (s b : Block) : (follow s pred tail k b).terminator = b.terminator := by
  unfold follow
  split <;> rfl

theorem follow_phis_eq {α : Type} (c : Operation Phi → α) (s b : Block)
    (hc : ∀ p : Operation Phi, c (p.map fun q => q.retarget pred tail) = c p) :
    (follow s pred tail k b).phis.map c = b.phis.map c := by
  unfold follow
  split
  · simp [Block.mapPhis, hc]
  · rfl

theorem follow_phis_nil {s : Block} (h : b.phis = []) : (follow s pred tail k b).phis = [] := by
  unfold follow
  split
  · simp [Block.mapPhis, h]
  · exact h

theorem uses_retarget (p : Phi) (old new : BlockId) : (p.retarget old new).uses = p.uses := by
  simp [Phi.uses, Phi.retarget, filterMap_map]

theorem follow_defs (s b : Block) : (follow s pred tail k b).defs = b.defs := by
  rw [Block.defs, Block.defs, follow_instructions,
    follow_phis_eq (fun p => p.kind.dest) s b fun p => rfl]

theorem follow_uses (s b : Block) : (follow s pred tail k b).uses = b.uses := by
  rw [Block.uses, Block.uses, follow_instructions, follow_terminator, flatMap_def,
    flatMap_def (l := b.phis),
    follow_phis_eq (fun p => p.kind.uses) s b fun p => uses_retarget p.kind pred tail]

theorem cut_of_detach {f₁ : Function} (h : f.Numbered) (ho : o ∈ f.instructions)
    (hf : detach f o.id = .ok (f₁, some (pred, tail))) :
    Cut f o target pred tail (redirect f₁ pred tail target) := by
  have hs := Function.numbered_iff.mp h
  have hspare := redirect_spare (detach_spare hs hf).1 pred tail target
  unfold detach at hf
  split at hf
  · cases hf
  next b i hl =>
  obtain ⟨⟨f₂, tail'⟩, h₂, hf⟩ := bind_eq_ok.mp hf
  cases tail' with
  | none => cases hf
  | some tail' =>
    cases hf
    obtain ⟨s, p, hb, hi, hid⟩ := hs.locateInstruction hl
    have hmem : p ∈ f.instructions :=
      Function.mem_instructions.mpr ⟨pred, s, hb, mem_of_getElem? hi⟩
    have hp : p = o := (h.counted True).instruction_unique hmem ho hid
    subst hp
    obtain ⟨s', branch, hb', -, hnone, hblocks⟩ := Function.block?_splitBlock hs trivial h₂
    rw [hb] at hb'
    cases hb'
    obtain ⟨htrap, hreg⟩ := Function.splitBlock_frame h₂
    obtain ⟨hlt, hget⟩ := List.getElem?_eq_some_iff.mp hi
    obtain ⟨hnumbered, hheader⟩ := hspare.numbered trivial trivial
    refine ⟨hnumbered, hheader, htrap, hreg, hnone, s, s.instructions.take i,
      s.instructions.drop (i + 1), branch, hb, ?_, fun k => ?_⟩
    · rw [← hget, getElem_cons_drop, take_append_drop]
    · rw [redirect, Function.block?_modifyBlock, Function.block?_modifyBlock, hblocks]
      by_cases hk : k = pred
      · subst hk
        have htake : (s.instructions.take (i + 1)).eraseIdx i = s.instructions.take i := by
          rw [eraseIdx_eq_take_drop_succ, take_take, Nat.min_eq_left (Nat.le_succ i),
            drop_eq_nil_of_le, append_nil]
          rw [length_take]
          exact Nat.min_le_left _ _
        simp only [↓reduceIte, map_some, follow]
        split <;> simp [Block.mapPhis, Block.mapTerminator, Operation.map, Terminator.redirect,
          Terminator.mapTargets, htake]
      · simp only [hk, ↓reduceIte]
        rfl

/-- A function before and after some instructions were cut out, one after the other. -/
inductive CutAll (target : BlockId) : Function → List (Operation Instruction) →
    List (BlockId × BlockId) → Function → Prop
  | nil (f : Function) : CutAll target f [] [] f
  | cons {f f₁ g o os pred tail ends} (h : Cut f o target pred tail f₁)
      (hr : CutAll target f₁ os ends g) : CutAll target f (o :: os) ((pred, tail) :: ends) g

theorem cutAll_of_detachAll {l : List Fused} {os : List (Operation Instruction)}
    {ends : List (BlockId × BlockId)} (h : f.Numbered) (hnodup : (os.map Operation.id).Nodup)
    (hl : l.map Fused.op = os.map Operation.id) (hos : ∀ o ∈ os, o ∈ f.instructions)
    (hf : detachAll target l f = .ok (g, some ends)) : CutAll target f os ends g := by
  induction os generalizing f l ends with
  | nil =>
    rw [map_nil, map_eq_nil_iff] at hl
    subst hl
    cases hf
    exact .nil _
  | cons o os ih =>
    cases l with
    | nil => cases hl
    | cons c l =>
      rw [map_cons, map_cons, List.cons.injEq] at hl
      rw [map_cons, nodup_cons] at hnodup
      have ho := hos o (by simp)
      obtain ⟨⟨f₁, ends₁⟩, h₁, hf⟩ := bind_eq_ok.mp hf
      rw [hl.1] at h₁
      have hkeep := fun p => mem_instructions_detach (Function.numbered_iff.mp h) trivial h₁ (o := p)
      cases ends₁ with
      | none => cases hf
      | some e =>
        obtain ⟨pred, tail⟩ := e
        obtain ⟨⟨f₂, more⟩, h₂, hf⟩ := bind_eq_ok.mp hf
        cases more with
        | none => cases hf
        | some more =>
          cases hf
          have hcut : Cut f o target pred tail (redirect f₁ pred tail target) :=
            cut_of_detach h ho h₁
          refine .cons hcut (ih hcut.numbered hnodup.2 hl.2 (fun p hp => ?_) h₂)
          refine mem_instructions_redirect (hkeep p (hos p (by simp [hp])) fun hid => ?_) ..
          exact hnodup.1 (List.mem_map.mpr ⟨p, hp, hid⟩)

def incoming (preds : List BlockId) (fused : List Fused) (index : Nat) :
    List (BlockId × Operand) :=
  (preds.zip fused).filterMap fun e => (e.2.args[index]?).map fun o => (e.1, o)

theorem argumentPhis_eq_ok {callee : String} {preds : List BlockId} {tys : List Ty} {index : Nat}
    {phis : List (Operation Phi)} {args : List Operand}
    (hg : argumentPhis ordinal callee preds fused tys index f = .ok (g, phis, args)) :
    f.Ticks g ∧ phis.length = tys.length ∧ args = phis.map (fun p => .reg p.kind.dest) ∧
      ∀ i p, phis[i]? = some p → f.nextReg ≤ p.kind.dest.index ∧
        p.tags = (Role.argument (index + i)).tags callee ordinal ∧
        p.kind.incoming = incoming preds fused (index + i) := by
  induction tys generalizing f index phis args with
  | nil =>
    cases hg
    exact ⟨.refl _, rfl, rfl, by simp⟩
  | cons ty tys ih =>
    obtain ⟨⟨f₁, dest⟩, h₁, hg⟩ := bind_eq_ok.mp hg
    obtain ⟨⟨f₂, phi⟩, h₂, hg⟩ := bind_eq_ok.mp hg
    obtain ⟨⟨f₃, phis', args'⟩, h₃, hg⟩ := bind_eq_ok.mp hg
    cases hg
    have t₁ := Function.ticks_freshTyped h₁
    obtain ⟨t₂, hkind, htags⟩ := Function.ticks_op h₂
    obtain ⟨t₃, hlen, rfl, hphis⟩ := ih h₃
    have hdest := (Function.freshTyped_eq_ok h₁).1
    refine ⟨(t₁.trans t₂).trans t₃, by simp [hlen], by simp [hkind], fun i p hp => ?_⟩
    cases i with
    | zero =>
      cases hp
      rw [hkind, hdest]
      exact ⟨UInt32.le_refl _, htags, rfl⟩
    | succ i =>
      obtain ⟨hle, htags', hin⟩ := hphis i p hp
      refine ⟨UInt32.le_trans (t₁.trans t₂).counter hle, ?_, ?_⟩
      · rw [htags', Nat.add_right_comm, Nat.add_assoc]
      · rw [hin, Nat.add_right_comm, Nat.add_assoc]

theorem resultSlots_eq_ok {result : Ty} {slots : Option (Reg × Reg)}
    (hg : resultSlots f result tags = .ok (g, slots)) :
    result.isVoid = true ∧ slots = none ∧ g = f ∨
      result.isVoid = false ∧ ∃ reg slot f₁ o, slots = some (reg, slot) ∧
        f.nextReg ≤ reg.index ∧ f.nextReg ≤ slot.index ∧ f.Ticks f₁ ∧
        o.told = (.alloca slot result, tags) ∧
        g = f₁.modifyBlock f.graph.entry fun b => b.insertAt b.allocaCount o := by
  unfold resultSlots at hg
  split at hg
  · next hvoid =>
    cases hg
    exact .inl ⟨hvoid, rfl, rfl⟩
  · next hvoid =>
    obtain ⟨⟨f₁, reg⟩, h₁, hg⟩ := bind_eq_ok.mp hg
    obtain ⟨⟨f₂, slot⟩, h₂, hg⟩ := bind_eq_ok.mp hg
    cases hg
    have t₁ := Function.ticks_freshTyped h₁
    obtain ⟨f₃, o, t₂, ho, hslot, -, rfl⟩ := Spill.createSlot_eq_ok h₂
    have hentry : f₁.graph.entry = f.graph.entry := congrArg Header.entry t₁.header
    refine .inr ⟨Bool.eq_false_iff.mpr hvoid, reg, slot, f₃, o, rfl, ?_, ?_, t₁.trans t₂, ho, ?_⟩
    · rw [(Function.freshTyped_eq_ok h₁).1]
      exact UInt32.le_refl _
    · rw [hslot]
      exact t₁.counter
    · rw [hentry]

def reloadsAt (slot : Reg) (ty : Ty) (tags : Tags) (k : BlockId) :
    List (Option Reg × BlockId) → List (Instruction × Tags)
  | [] => []
  | (dest, b) :: rest => reloadsAt slot ty tags k rest ++
      if b = k then (dest.map fun d => (Instruction.load d (.reg slot) ty, tags)).toList else []

theorem mem_reloadsAt {x : Instruction × Tags} :
    x ∈ reloadsAt slot ty tags k l ↔ ∃ d, (some d, k) ∈ l ∧ x = (.load d (.reg slot) ty, tags) := by
  induction l with
  | nil => simp [reloadsAt]
  | cons e l ih =>
    obtain ⟨dest, b⟩ := e
    rw [reloadsAt, mem_append, ih]
    by_cases hb : b = k
    · cases dest <;> simp [hb, eq_comm, or_comm, or_and_right, exists_or]
    · simp [hb, Ne.symm hb]

theorem reloadResults_eq_ok (hg : reloadResults slot ty tags l f = .ok g) :
    f.Frame g ∧ ∃ loads : BlockId → List (Operation Instruction),
      (∀ k, (loads k).map Operation.told = reloadsAt slot ty tags k l) ∧
      ∀ k, g.graph.block? k = (f.graph.block? k).map fun b =>
        { b with instructions := loads k ++ b.instructions } := by
  induction l generalizing f with
  | nil =>
    cases hg
    exact ⟨.refl _, fun _ => [], fun _ => rfl, fun k => by simp⟩
  | cons e l ih =>
    obtain ⟨dest, b⟩ := e
    cases dest with
    | none =>
      obtain ⟨hframe, loads, hloads, hblocks⟩ := ih hg
      exact ⟨hframe, loads, fun k => by simp [hloads, reloadsAt], hblocks⟩
    | some d =>
      obtain ⟨f₁, h₁, hg⟩ := bind_eq_ok.mp hg
      obtain ⟨⟨f₂, load⟩, h₂, h₁⟩ := bind_eq_ok.mp h₁
      cases h₁
      obtain ⟨t, hkind, htags⟩ := Function.ticks_op h₂
      obtain ⟨hframe, loads, hloads, hblocks⟩ := ih hg
      refine ⟨t.frame.trans ((Function.frame_modifyBlock f₂ b _).trans hframe),
        fun k => loads k ++ if b = k then [load] else [], fun k => ?_, fun k => ?_⟩
      · rw [map_append, hloads, reloadsAt]
        split <;> simp [Operation.told, hkind, htags]
      · rw [hblocks, Function.block?_modifyBlock, t.block?]
        by_cases hk : k = b
        · subst hk
          simp [Block.insertAt, Function.comp_def]
        · simp [hk, Ne.symm hk]

/-- The cell of the result of a site, its allocation, and the store of what the call gives. -/
structure Outcome where
  reg : Reg
  slot : Reg
  alloca : Operation Instruction
  store : Operation Instruction

/-- The operations that a new site is made of. -/
structure Parts where
  caseId : Operation Phi
  inputs : List (Operation Phi)
  start : Operation Instruction
  call : Operation Instruction
  result : Option Outcome
  finish : Operation Instruction
  switch : Operation Terminator

namespace Parts

def fill (p : Parts) (b : Block) : Block :=
  { b with
    phis := p.caseId :: p.inputs
    instructions := p.start :: p.call :: (p.result.map Outcome.store).toList ++ [p.finish]
    terminator := p.switch }

def allocate (p : Parts) (b : Block) : Block :=
  match p.result with
  | none => b
  | some r => b.insertAt b.allocaCount r.alloca

def place (p : Parts) (entry block k : BlockId) (b : Block) : Block :=
  if k = block then p.fill b else if k = entry then p.allocate b else b

/-- What the operations of a new site do. Registers from `floor` on are new. -/
structure Works (p : Parts) (floor : UInt32) (callee : FuncId) (target : Function)
    (ordinal : UInt64) (trap : BlockId) (fused : List Fused) (ends : List (BlockId × BlockId)) :
    Prop where
  caseTags : p.caseId.tags = Role.caseId.tags target.name ordinal
  caseIncoming : p.caseId.kind.incoming =
    (numbered (ends.map Prod.fst)).map fun e => (e.2, Operand.int e.1)
  arity : p.inputs.length = target.signature.params.length
  inputs : ∀ i q, p.inputs[i]? = some q → floor ≤ q.kind.dest.index ∧
    q.tags = (Role.argument i).tags target.name ordinal ∧
    q.kind.incoming = incoming (ends.map Prod.fst) fused i
  start : p.start.told = (.marker, Role.start.tags target.name ordinal)
  call : p.call.told = (.call (p.result.map Outcome.reg) callee
    (p.inputs.map fun q => .reg q.kind.dest), Role.function.tags target.name ordinal)
  finish : p.finish.told = (.marker, Role.finish.tags target.name ordinal)
  switch : p.switch.told = (.switch (.reg p.caseId.kind.dest) (numbered (ends.map Prod.snd)) trap,
    Role.function.tags target.name ordinal)
  valued : p.result.isSome = !target.signature.result.isVoid
  result : ∀ r, p.result = some r → floor ≤ r.reg.index ∧ floor ≤ r.slot.index ∧
    r.alloca.told = (.alloca r.slot target.signature.result,
      Role.result.tags target.name ordinal) ∧
    r.store.told = (.store (.reg r.slot) (.reg r.reg), Role.result.tags target.name ordinal)

end Parts

def loadsAt (p : Parts) (ty : Ty) (tags : Tags) (l : List (Option Reg × BlockId)) (k : BlockId) :
    List (Instruction × Tags) :=
  match p.result with
  | none => []
  | some r => reloadsAt r.slot ty tags k l

/-- A function before and after a new site was put together in `block`. -/
structure Filled (f : Function) (p : Parts) (block : BlockId) (target : Function)
    (ordinal : UInt64) (fused : List Fused) (ends : List (BlockId × BlockId)) (g : Function) :
    Prop where
  frame : f.Frame g
  blocks : ∃ loads : BlockId → List (Operation Instruction),
    (∀ k, (loads k).map Operation.told = loadsAt p target.signature.result
      (Role.result.tags target.name ordinal)
      ((fused.map Fused.dest).zip (ends.map Prod.snd)) k) ∧
    ∀ k, g.graph.block? k = (f.graph.block? k).map fun b =>
      let b := p.place f.graph.entry block k b
      { b with instructions := loads k ++ b.instructions }

theorem fill_eq_ok {target : Function} {ends : List (BlockId × BlockId)}
    (hg : fill f caller callee target ordinal block trap fused ends = .ok (g, site)) :
    ∃ p : Parts, p.Works f.nextReg callee target ordinal trap fused ends ∧
      Filled f p block target ordinal fused ends g ∧
      site = ⟨caller, target.name, ordinal, block, block, some p.call.id, none, [],
        p.result.map Outcome.slot⟩ := by
  obtain ⟨⟨f₁, id⟩, h₁, hg⟩ := bind_eq_ok.mp hg
  obtain ⟨⟨f₂, idPhi⟩, h₂, hg⟩ := bind_eq_ok.mp hg
  obtain ⟨⟨f₃, phis, args⟩, h₃, hg⟩ := bind_eq_ok.mp hg
  obtain ⟨⟨f₄, slots⟩, h₄, hg⟩ := bind_eq_ok.mp hg
  obtain ⟨⟨f₅, start⟩, h₅, hg⟩ := bind_eq_ok.mp hg
  obtain ⟨⟨f₆, call⟩, h₆, hg⟩ := bind_eq_ok.mp hg
  obtain ⟨⟨f₇, store⟩, h₇, hg⟩ := bind_eq_ok.mp hg
  obtain ⟨⟨f₈, finish⟩, h₈, hg⟩ := bind_eq_ok.mp hg
  obtain ⟨⟨f₉, switch⟩, h₉, hg⟩ := bind_eq_ok.mp hg
  have t₁ := Function.ticks_freshTyped h₁
  obtain ⟨t₂, hkind₂, htags₂⟩ := Function.ticks_op h₂
  obtain ⟨t₃, harity, rfl, hinputs⟩ := argumentPhis_eq_ok h₃
  obtain ⟨t₅, hkind₅, htags₅⟩ := Function.ticks_op h₅
  obtain ⟨t₆, hkind₆, htags₆⟩ := Function.ticks_op h₆
  obtain ⟨t₇, hstore⟩ := storeResult_ticks h₇
  obtain ⟨t₈, hkind₈, htags₈⟩ := Function.ticks_op h₈
  obtain ⟨t₉, hkind₉, htags₉⟩ := Function.ticks_op h₉
  have t₁₂ := t₁.trans t₂
  have t₁₃ := t₁₂.trans t₃
  have t₄₉ : f₄.Ticks f₉ := t₅.trans (t₆.trans (t₇.trans (t₈.trans t₉)))
  have hworks : ∀ result : Option Outcome, slots.map Prod.fst = result.map Outcome.reg →
      result.isSome = !target.signature.result.isVoid →
      (∀ r, result = some r → f.nextReg ≤ r.reg.index ∧ f.nextReg ≤ r.slot.index ∧
        r.alloca.told = (.alloca r.slot target.signature.result,
          Role.result.tags target.name ordinal) ∧
        r.store.told = (.store (.reg r.slot) (.reg r.reg),
          Role.result.tags target.name ordinal)) →
      (Parts.mk idPhi phis start call result finish switch).Works f.nextReg callee target ordinal
        trap fused ends := by
    intro result hresult hvalued hr
    constructor
    case caseTags => exact htags₂
    case caseIncoming => rw [hkind₂]
    case arity => rw [harity, length_map]
    case inputs =>
      intro i q hq
      obtain ⟨hle, htags, hin⟩ := hinputs i q hq
      rw [Nat.zero_add] at htags hin
      exact ⟨UInt32.le_trans t₁₂.counter hle, htags, hin⟩
    case start => exact Operation.told_eq.mpr ⟨hkind₅, htags₅⟩
    case call => exact Operation.told_eq.mpr ⟨by rw [hkind₆, hresult], htags₆⟩
    case finish => exact Operation.told_eq.mpr ⟨hkind₈, htags₈⟩
    case switch => exact Operation.told_eq.mpr ⟨by rw [hkind₉, hkind₂], htags₉⟩
    case valued => exact hvalued
    case result => exact hr
  rcases resultSlots_eq_ok h₄ with ⟨hvoid, rfl, rfl⟩ |
    ⟨hvoid, reg, slot, f₃', alloca, rfl, hreg, hslot, t₄, halloca, rfl⟩
  · rcases hstore with ⟨-, rfl⟩ | ⟨_, _, _, hn, -⟩
    · cases hg
      refine ⟨⟨idPhi, phis, start, call, none, finish, switch⟩, hworks none rfl (by simp [hvoid])
        (by simp), ⟨?_, fun _ => [], fun _ => rfl, fun k => ?_⟩, rfl⟩
      · exact (t₁₃.trans t₄₉).frame.trans (Function.frame_modifyBlock f₉ block _)
      · rw [Function.block?_modifyBlock, t₄₉.block?, t₁₃.block?]
        by_cases hk : k = block
        · simp [hk, Parts.place, Parts.fill]
        · simp [hk, Parts.place, Parts.allocate]
    · cases hn
  · rcases hstore with ⟨hn, -⟩ | ⟨reg', slot', store', hs, rfl, hkind₇, htags₇⟩
    · cases hn
    · cases hs
      obtain ⟨f₁₀, h₁₀, hg⟩ := bind_eq_ok.mp hg
      cases hg
      obtain ⟨hframe, loads, hloads, hblocks⟩ := reloadResults_eq_ok h₁₀
      have hle₃ : f.nextReg ≤ f₃.nextReg := t₁₃.counter
      have hentry : f₃.graph.entry = f.graph.entry := congrArg Header.entry t₁₃.header
      refine ⟨⟨idPhi, phis, start, call, some ⟨reg, slot, alloca, store'⟩, finish, switch⟩,
        hworks _ rfl (by simp [hvoid]) ?_, ⟨?_, loads, hloads, fun k => ?_⟩, rfl⟩
      · rintro r ⟨rfl⟩
        exact ⟨UInt32.le_trans hle₃ hreg, UInt32.le_trans hle₃ hslot, halloca,
          Operation.told_eq.mpr ⟨hkind₇, htags₇⟩⟩
      · exact ((t₁₃.trans t₄).frame.trans (Function.frame_modifyBlock f₃' _ _)).trans
          (t₄₉.frame.trans ((Function.frame_modifyBlock f₉ block _).trans hframe))
      · rw [hblocks, Function.block?_modifyBlock, t₄₉.block?, Function.block?_modifyBlock, t₄.block?,
          t₁₃.block?, hentry]
        by_cases hk : k = block
        · subst hk
          rw [if_pos rfl]
          split <;> simp [Parts.place, Parts.fill, Block.insertAt, Function.comp_def]
        · by_cases he : k = f.graph.entry
          · subst he
            simp [hk, Parts.place, Parts.allocate, Function.comp_def]
          · simp [hk, he, Parts.place]

theorem isTrap_iff :
    b.isTrap = true ↔ b.phis = [] ∧ b.instructions = [] ∧ b.terminator.kind = .unreachable := by
  simp [Block.isTrap, and_assoc]

/-- A function before and after it was given a block for a site, and a trap block if it had none. -/
structure Prepared (f : Function) (block trap : BlockId) (g : Function) : Prop where
  numbered : g.Numbered
  header : g.header = f.header
  counter : g.nextReg = f.nextReg
  recorded : g.trap = some trap
  shared : f.trap = some trap ∨ f.graph.block? trap = none
  dead : ∃ b, g.graph.block? trap = some b ∧ b.isTrap = true
  apart : trap ≠ block
  fresh : f.graph.block? block = none
  there : ∃ b, g.graph.block? block = some b ∧ b.isTrap = true
  blocks : ∀ k, g.graph.block? k = f.graph.block? k ∨ f.graph.block? k = none ∧
    ∃ b, g.graph.block? k = some b ∧ b.isTrap = true ∧ b.terminator.tags = .empty
  instructions : ∀ o ∈ f.instructions, o ∈ g.instructions

theorem trapBlock_blank (h : f.Numbered) (hg : f.trapBlock = .ok (g, trap)) :
    g.trap = some trap ∧ g.nextReg = f.nextReg ∧
      (f.trap = some trap ∨ f.graph.block? trap = none) ∧
      (∃ b, g.graph.block? trap = some b ∧ b.isTrap = true) ∧
      ∀ k, g.graph.block? k = f.graph.block? k ∨ f.graph.block? k = none ∧
        ∃ b, g.graph.block? k = some b ∧ b.isTrap = true ∧ b.terminator.tags = .empty := by
  unfold Function.trapBlock at hg
  dsimp only at hg
  split at hg
  · next t htrap =>
    cases hg
    obtain ⟨htrap, hdead⟩ := filter_eq_some_iff.mp htrap
    refine ⟨htrap, rfl, .inl htrap, ?_, fun _ => .inl rfl⟩
    cases hb : f.graph.block? trap with
    | none => simp [hb] at hdead
    | some b => exact ⟨b, rfl, by simpa [hb] using hdead⟩
  · obtain ⟨⟨f₁, t⟩, h₁, hg⟩ := bind_eq_ok.mp hg
    cases hg
    have hnone := ((Function.numbered_iff.mp h).createBlock h₁).2 trivial
    have hblock : ∀ k, (f₁.modifyBlock t fun b =>
        { b with label := some "unreachable" }).graph.block? k =
        if k = t then some { Block.fresh t ⟨f.graph.nextOp⟩ with label := some "unreachable" }
        else f.graph.block? k := by
      intro k
      rw [Function.block?_modifyBlock, Function.block?_createBlock h₁]
      by_cases hk : k = t
      · simp [hk]
      · simp [hk]
    obtain ⟨-, _, _, -, -, hf₁⟩ := Function.createBlock_eq_ok h₁
    refine ⟨rfl, ?_, .inr hnone, ⟨_, (hblock t).trans (if_pos rfl), rfl⟩, fun k => ?_⟩
    · rw [hf₁]
      rfl
    · by_cases hk : k = t
      · subst hk
        exact .inr ⟨hnone, _, (hblock k).trans (if_pos rfl), rfl, rfl⟩
      · exact .inl ((hblock k).trans (if_neg hk))

theorem prepared_of_blocks {f₁ f₂ : Function} (label : String) (h : f.Numbered)
    (h₁ : f.trapBlock = .ok (f₁, trap)) (h₂ : f₁.createBlock = .ok (f₂, block)) :
    Prepared f block trap (f₂.modifyBlock block fun b => { b with label := some label }) := by
  have hs := Function.numbered_iff.mp h
  have hs₁ := hs.trapBlock h₁
  obtain ⟨hs₂, hnew⟩ := hs₁.createBlock h₂
  have hnone := hnew trivial
  have hs₃ : (f₂.modifyBlock block fun b => { b with label := some label }).Spare _ [] [] :=
    hs₂.unchanged (fun _ => rfl) (fun _ => rfl) fun _ => rfl
  have hblocks : ∀ k, (f₂.modifyBlock block fun b => { b with label := some label }).graph.block? k =
      if k = block then some { Block.fresh block ⟨f₁.graph.nextOp⟩ with label := some label }
      else f₁.graph.block? k := by
    intro k
    rw [Function.block?_modifyBlock, Function.block?_createBlock h₂]
    by_cases hk : k = block
    · simp [hk]
    · simp [hk]
  obtain ⟨-, _, _, -, -, hf₂⟩ := Function.createBlock_eq_ok h₂
  have hsecond : f₂.trap = f₁.trap ∧ f₂.nextReg = f₁.nextReg := by
    rw [hf₂]
    exact ⟨rfl, rfl⟩
  obtain ⟨htrap, hreg, hshared, ⟨dead, hdead, hempty⟩, hothers⟩ := trapBlock_blank h h₁
  have hne : trap ≠ block := by
    rintro rfl
    rw [hnone] at hdead
    cases hdead
  have hfresh : f.graph.block? block = none := by
    rcases hothers block with hb | ⟨hb, -⟩
    · rw [← hb, hnone]
    · exact hb
  constructor
  case numbered => exact (hs₃.numbered trivial trivial).1
  case header => exact (hs₃.numbered trivial trivial).2
  case counter => exact hsecond.2.trans hreg
  case recorded => exact hsecond.1.trans htrap
  case shared => exact hshared
  case dead => exact ⟨dead, by rw [hblocks, if_neg hne, hdead], hempty⟩
  case apart => exact hne
  case fresh => exact hfresh
  case there => exact ⟨_, (hblocks block).trans (if_pos rfl), rfl⟩
  case blocks =>
    intro k
    rw [hblocks]
    split
    · next hk => exact .inr ⟨hk ▸ hfresh, _, rfl, rfl, rfl⟩
    · exact hothers k
  case instructions =>
    intro o ho
    exact Function.mem_instructions_modifyBlock (Function.mem_instructions_createBlock hs₁ trivial h₂
      (Function.mem_instructions_trapBlock hs trivial h₁ ho)) fun _ _ ho => ho

namespace Cut

variable {b b' : Block}

theorem entry_eq (h : Cut f o target pred tail g) : g.graph.entry = f.graph.entry :=
  congrArg Header.entry h.header

theorem cases_block (h : Cut f o target pred tail g) (hb' : g.graph.block? k = some b') :
    (∃ s before after branch, f.graph.block? pred = some s ∧
      s.instructions = before ++ o :: after ∧
      (k = pred ∧ b' = follow s pred tail k { s with
          instructions := before
          terminator := ⟨branch, .branch target, .empty⟩ } ∨
        k = tail ∧ b' = ⟨tail, none, [], after, s.terminator⟩)) ∨
    k ≠ pred ∧ k ≠ tail ∧ ∃ s b, f.graph.block? k = some b ∧ b' = follow s pred tail k b := by
  obtain ⟨s, before, after, branch, hs, hsplit, hblocks⟩ := h.blocks
  rw [hblocks] at hb'
  split at hb'
  · next hk =>
    cases hb'
    exact .inl ⟨s, before, after, branch, hs, hsplit, .inl ⟨hk, rfl⟩⟩
  · next hk =>
    split at hb'
    · next hkt =>
      cases hb'
      refine .inl ⟨s, before, after, branch, hs, hsplit, .inr ⟨hkt, ?_⟩⟩
      unfold follow
      split <;> rfl
    · next hkt =>
      obtain ⟨b, hb, rfl⟩ := map_eq_some_iff.mp hb'
      exact .inr ⟨hk, hkt, s, b, hb, rfl⟩

theorem isSome_block (h : Cut f o target pred tail g) (hk : (f.graph.block? k).isSome) :
    (g.graph.block? k).isSome := by
  obtain ⟨s, before, after, branch, hs, hsplit, hblocks⟩ := h.blocks
  rw [hblocks, isSome_map]
  split
  · rfl
  · split
    · rfl
    · exact hk

theorem isSome_tail (h : Cut f o target pred tail g) : (g.graph.block? tail).isSome := by
  obtain ⟨s, before, after, branch, hs, hsplit, hblocks⟩ := h.blocks
  rw [hblocks, isSome_map, if_pos rfl]
  split
  · rfl
  · rfl

theorem block?_of_isTrap (h : Cut f o target pred tail g) (hb : f.graph.block? k = some b)
    (hdead : b.isTrap = true) : g.graph.block? k = some b := by
  obtain ⟨s, before, after, branch, hs, hsplit, hblocks⟩ := h.blocks
  obtain ⟨hphis, hempty, -⟩ := isTrap_iff.mp hdead
  have hpred : k ≠ pred := by
    rintro rfl
    rw [hb] at hs
    cases hs
    rw [hempty] at hsplit
    exact absurd hsplit (by simp)
  have htail : k ≠ tail := by
    rintro rfl
    rw [h.fresh] at hb
    cases hb
  rw [hblocks, if_neg hpred, if_neg htail, hb, map_some]
  unfold follow
  split
  · obtain ⟨id, label, phis, is, t⟩ := b
    simp only at hphis
    simp [Block.mapPhis, hphis]
  · rfl

end Cut

namespace CutAll

variable {os : List (Operation Instruction)} {ends : List (BlockId × BlockId)} {b : Block}

theorem frame (h : CutAll target f os ends g) (hf : f.Numbered) :
    g.Numbered ∧ g.header = f.header ∧ g.trap = f.trap ∧ g.nextReg = f.nextReg := by
  induction h with
  | nil => exact ⟨hf, rfl, rfl, rfl⟩
  | cons h _ ih =>
    obtain ⟨hn, hh, ht, hr⟩ := ih h.numbered
    exact ⟨hn, hh.trans h.header, ht.trans h.trap, hr.trans h.counter⟩

theorem isSome_block (h : CutAll target f os ends g) (hk : (f.graph.block? k).isSome) :
    (g.graph.block? k).isSome := by
  induction h with
  | nil => exact hk
  | cons h _ ih => exact ih (h.isSome_block hk)

theorem block?_of_isTrap (h : CutAll target f os ends g) (hb : f.graph.block? k = some b)
    (hdead : b.isTrap = true) : g.graph.block? k = some b := by
  induction h with
  | nil => exact hb
  | cons h _ ih => exact ih (h.block?_of_isTrap hb hdead)

theorem tails (h : CutAll target f os ends g) :
    ∀ x ∈ ends, f.graph.block? x.2 = none ∧ (g.graph.block? x.2).isSome := by
  induction h with
  | nil => simp
  | cons h hr ih =>
    rw [forall_mem_cons]
    refine ⟨⟨h.fresh, hr.isSome_block h.isSome_tail⟩, fun x hx => ⟨?_, (ih x hx).2⟩⟩
    by_contra hsome
    have := h.isSome_block (ne_none_iff_isSome.mp hsome)
    rw [(ih x hx).1] at this
    cases this

theorem length_eq (h : CutAll target f os ends g) : ends.length = os.length := by
  induction h with
  | nil => rfl
  | cons _ _ ih => simp [ih]

end CutAll

namespace Filled

variable {p : Parts} {block : BlockId} {callee : Function} {ordinal : UInt64} {fused : List Fused}
  {ends : List (BlockId × BlockId)} {b b' : Block}

theorem loadsAt_eq_nil {ty : Ty} {tags : Tags} {l : List (Option Reg × BlockId)}
    (hk : ∀ x ∈ l, x.2 ≠ k) : loadsAt p ty tags l k = [] := by
  unfold loadsAt
  split
  · rfl
  · refine eq_nil_iff_forall_not_mem.mpr fun x hx => ?_
    obtain ⟨d, hd, -⟩ := mem_reloadsAt.mp hx
    exact hk _ hd rfl

theorem mem_tails {x : Option Reg × BlockId}
    (hx : x ∈ (fused.map Fused.dest).zip (ends.map Prod.snd)) : ∃ e ∈ ends, e.2 = x.2 :=
  List.mem_map.mp (of_mem_zip hx).2

theorem cases_block (h : Filled f p block callee ordinal fused ends g)
    (hblock : ∀ x ∈ ends, x.2 ≠ block) (hb' : g.graph.block? k = some b') :
    ∃ b, f.graph.block? k = some b ∧ (k = block ∧ b' = p.fill b ∨
      k ≠ block ∧ ∃ loads, loads.map Operation.told = loadsAt p callee.signature.result
          (Role.result.tags callee.name ordinal)
          ((fused.map Fused.dest).zip (ends.map Prod.snd)) k ∧
        b' = { b with
          instructions := loads ++
            if k = f.graph.entry then (p.allocate b).instructions else b.instructions }) := by
  obtain ⟨loads, hloads, hblocks⟩ := h.blocks
  rw [hblocks] at hb'
  obtain ⟨b, hb, rfl⟩ := map_eq_some_iff.mp hb'
  refine ⟨b, hb, ?_⟩
  by_cases hk : k = block
  · subst hk
    have hnil : loads k = [] := by
      rw [← map_eq_nil_iff (f := Operation.told), hloads]
      refine loadsAt_eq_nil fun x hx => ?_
      obtain ⟨e, he, hex⟩ := mem_tails hx
      exact hex ▸ hblock e he
    refine .inl ⟨rfl, ?_⟩
    simp [hnil, Parts.place]
  · refine .inr ⟨hk, loads k, hloads k, ?_⟩
    by_cases he : k = f.graph.entry
    · rw [Parts.place, if_neg hk, if_pos he, if_pos he]
      unfold Parts.allocate
      split <;> rfl
    · simp [Parts.place, hk, he]

end Filled

structure Fuses (f : Function) (callee : FuncId) (target : Function)
    (os : List (Operation Instruction)) (fused : List Fused) (ordinal : UInt64)
    (block trap : BlockId) (ends : List (BlockId × BlockId)) (p : Parts) (g : Function) : Prop where
  numbered : g.Numbered
  works : p.Works f.nextReg callee target ordinal trap fused ends
  steps : ∃ f₁ f₂, Prepared f block trap f₁ ∧ CutAll block f₁ os ends f₂ ∧
    Filled f₂ p block target ordinal fused ends g

theorem fuseCalls_eq_ok {target : Function} {os : List (Operation Instruction)} (h : f.Numbered)
    (hnodup : (os.map Operation.id).Nodup)
    (hl : fused.map Fused.op = os.map Operation.id) (hos : ∀ o ∈ os, o ∈ f.instructions)
    (hdest : ∀ c ∈ fused, ∃ o ∈ os, o.id = c.op ∧ o.kind.dest? = c.dest)
    (hg : fuseCalls f caller callee target fused = .ok (g, some site)) :
    ∃ ordinal block trap ends p, Fuses f callee target os fused ordinal block trap ends p g ∧
      site = ⟨caller, target.name, ordinal, block, block, some p.call.id, none, [],
        p.result.map Outcome.slot⟩ := by
  have hnumbered := ((fuseCalls_spare (Function.numbered_iff.mp h) (fun _ => trivial) (hl ▸ hnodup)
    (fun c hc => (hdest c hc).imp fun o ho => ⟨hos o ho.1, ho.2⟩) hg).1.numbered trivial trivial).1
  obtain ⟨ordinal, -, hg⟩ := bind_eq_ok.mp hg
  obtain ⟨⟨f₁, trap⟩, h₁, hg⟩ := bind_eq_ok.mp hg
  obtain ⟨⟨f₂, block⟩, h₂, hg⟩ := bind_eq_ok.mp hg
  obtain ⟨⟨f₃, ends⟩, h₃, hg⟩ := bind_eq_ok.mp hg
  cases ends with
  | none => cases hg
  | some ends =>
    obtain ⟨⟨f₄, site'⟩, h₄, hg⟩ := bind_eq_ok.mp hg
    cases hg
    have hp := prepared_of_blocks ("fuse." ++ target.name) h h₁ h₂
    have hcut := cutAll_of_detachAll hp.numbered hnodup hl (fun o ho => hp.instructions o (hos o ho)) h₃
    obtain ⟨-, -, -, hcounter⟩ := hcut.frame hp.numbered
    obtain ⟨p, hworks, hfilled, rfl⟩ := fill_eq_ok h₄
    rw [hcounter.trans hp.counter] at hworks
    exact ⟨ordinal, block, trap, ends, p, ⟨hnumbered, hworks, _, f₃, hp, hcut, hfilled⟩, rfl⟩

theorem Fuses.header {target : Function} {os : List (Operation Instruction)}
    {ends : List (BlockId × BlockId)} {p : Parts}
    (h : Fuses f callee target os fused ordinal block trap ends p g) : g.header = f.header := by
  obtain ⟨f₁, f₂, hp, hc, hf⟩ := h.steps
  exact hf.frame.header.trans ((hc.frame hp.numbered).2.1.trans hp.header)

/-- An instruction of a function is a call of `callee`, with what is known of it. -/
structure Calls (f : Function) (callee : FuncId) (o : Operation Instruction) (c : Fused) :
    Prop where
  mem : o ∈ f.instructions
  id : o.id = c.op
  kind : o.kind = .call c.dest callee c.args

theorem calls_of_collectCalls {arity : Nat} (h : f.Numbered)
    (hc : collectCalls f callee arity ops = some fused) :
    ops.Nodup ∧ ∃ os, os.map Operation.id = ops ∧ List.Forall₂ (Calls f callee) os fused := by
  obtain ⟨hops, hnodup, hcalls⟩ := collectCalls_eq_some hc
  refine ⟨hnodup, ?_⟩
  subst hops
  clear hc hnodup
  induction fused with
  | nil => exact ⟨[], rfl, .nil⟩
  | cons c rest ih =>
    rw [forall_mem_cons] at hcalls
    obtain ⟨⟨o, ho, hk, -⟩, hrest⟩ := hcalls
    obtain ⟨ho, hid⟩ := instruction?_eq_some (h.counted True) ho
    obtain ⟨os, hos, hall⟩ := ih hrest
    exact ⟨o :: os, by rw [map_cons, map_cons, hos, hid], .cons ⟨ho, hid, hk⟩ hall⟩

theorem exists_getElem?_of_forall₂ {α β : Type} {R : α → β → Prop} {as : List α} {bs : List β}
    (h : List.Forall₂ R as bs) {i : Nat} {a : α} (ha : as[i]? = some a) :
    ∃ b, bs[i]? = some b ∧ R a b := by
  induction h generalizing i with
  | nil => cases ha
  | @cons a' b' as bs hab _ ih =>
    cases i with
    | zero =>
      cases ha
      exact ⟨b', rfl, hab⟩
    | succ i => exact ih ha

theorem build_eq_ok {m n : Module} {site : Option Site} (hf : m.function? caller = some f)
    (h : f.Numbered) (hm : build m caller callee ops = .ok (n, site)) :
    n = m ∧ site = none ∨ ∃ target os fused ordinal block trap ends p g,
      m.function? callee = some target ∧ os.map Operation.id = ops ∧
      List.Forall₂ (Calls f callee) os fused ∧
      Fuses f callee target os fused ordinal block trap ends p g ∧
      n = m.setFunction caller g ∧ site = some ⟨caller, target.name, ordinal, block, block,
        some p.call.id, none, [], p.result.map Outcome.slot⟩ := by
  rcases build_cases hm with hsame | ⟨f', target, fused, g, hf', ht, hc, hg, rfl⟩
  · exact .inl hsame
  · rw [hf] at hf'
    cases hf'
    obtain ⟨hnodup, os, hos, hall⟩ := calls_of_collectCalls h hc
    have hl : fused.map Fused.op = os.map Operation.id := by
      rw [hos, (collectCalls_eq_some hc).1]
    have hmem : ∀ o ∈ os, o ∈ f.instructions := fun o ho => by
      obtain ⟨i, hi⟩ := mem_iff_getElem?.mp ho
      obtain ⟨c, -, hcall⟩ := exists_getElem?_of_forall₂ hall hi
      exact hcall.mem
    have hdest : ∀ c ∈ fused, ∃ o ∈ os, o.id = c.op ∧ o.kind.dest? = c.dest := fun c hc => by
      obtain ⟨i, hi⟩ := mem_iff_getElem?.mp hc
      obtain ⟨o, ho, hcall⟩ := exists_getElem?_of_forall₂ hall.flip hi
      exact ⟨o, mem_of_getElem? ho, hcall.id, by rw [hcall.kind]; rfl⟩
    obtain ⟨-, hsome, -⟩ := fuseCalls_spare (Function.numbered_iff.mp h) (fun _ => trivial)
      (hl ▸ hos ▸ hnodup) (fun c hc => (hdest c hc).imp fun o ho => ⟨hmem o ho.1, ho.2⟩) hg
    obtain ⟨x, rfl⟩ := isSome_iff_exists.mp (hsome trivial)
    obtain ⟨ordinal, block, trap, ends, p, hx, rfl⟩ :=
      fuseCalls_eq_ok h (hos ▸ hnodup) hl hmem hdest hg
    exact .inr ⟨target, os, fused, ordinal, block, trap, ends, p, g, ht, hos, hall, hx, rfl, rfl⟩

end Site

end SiteFusion
