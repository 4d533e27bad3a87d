import SiteFusion.Proofs.NumberedAssembly
import SiteFusion.Proofs.NumberedRounds

namespace SiteFusion

inductive Build.IsStep : {α : Type} → Build α → Prop
  | startFunction (name : String) (params : List (String × Ty)) (result : Ty)
      (h : params.length < 2 ^ 32) : IsStep (Build.startFunction name params result)
  | declareFunction (name : String) (params : List (String × Ty)) (result : Ty)
      (h : params.length < 2 ^ 32) : IsStep (Build.declareFunction name params result)
  | finishFunction : IsStep Build.finishFunction
  | addGlobal (name : String) (ty : Ty) (initializer : Option Const) (mutable : Bool)
      (linkage : Linkage) : IsStep (Build.addGlobal name ty initializer mutable linkage)
  | setLinkage (linkage : Linkage) : IsStep (Build.setLinkage linkage)
  | createBlock : IsStep Build.createBlock
  | createLabelled (label : String) : IsStep (Build.createLabelled label)
  | switchTo (b : BlockId) : IsStep (Build.switchTo b)
  | const (c : Const) : IsStep (Build.const c)
  | copy (o : Operand) : IsStep (Build.copy o)
  | binary (op : BinaryOp) (l r : Operand) : IsStep (Build.binary op l r)
  | unary (op : UnaryOp) (o : Operand) : IsStep (Build.unary op o)
  | compare (op : CompareOp) (l r : Operand) : IsStep (Build.compare op l r)
  | select (c a b : Operand) : IsStep (Build.select c a b)
  | alloca (ty : Ty) : IsStep (Build.alloca ty)
  | load (p : Operand) (ty : Ty) : IsStep (Build.load p ty)
  | store (p v : Operand) : IsStep (Build.store p v)
  | loadGlobal (g : GlobalId) (ty : Ty) : IsStep (Build.loadGlobal g ty)
  | storeGlobal (g : GlobalId) (v : Operand) : IsStep (Build.storeGlobal g v)
  | call (f : FuncId) (args : List Operand) : IsStep (Build.call f args)
  | callIndirect (p : Operand) (args : List Operand) (result : Ty) :
      IsStep (Build.callIndirect p args result)
  | inlineAsm (asm : String) (inputs : List Operand) (result : Ty) :
      IsStep (Build.inlineAsm asm inputs result)
  | functionRef (f : FuncId) : IsStep (Build.functionRef f)
  | terminate (t : Terminator) : IsStep (Build.terminate t)
  | phi (ty : Ty) : IsStep (Build.phi ty)
  | incoming (b : BlockId) (r : Reg) (pred : BlockId) (v : Operand) :
      IsStep (Build.incoming b r pred v)

inductive Assembly.Reachable : Assembly → Prop
  | create (name : String) : Reachable ⟨Module.create name, none, none⟩
  | step {α : Type} {b : Build α} {a a' : Assembly} {r : Option α} (hb : b.IsStep)
      (ha : Reachable a) (h : b.apply a = .ok (r, a')) : Reachable a'

theorem Build.IsStep.keepsNumbers {α : Type} {b : Build α} (h : b.IsStep) : b.KeepsNumbers := by
  cases h with
  | startFunction name params result h => exact startFunction_keeps h name result
  | declareFunction name params result h => exact declareFunction_keeps h name result
  | finishFunction => exact modify_keeps fun _ => rfl
  | addGlobal => exact onModule_keeps fun _ _ _ h hm => h.addGlobal hm
  | setLinkage linkage => exact setLinkage_keeps linkage
  | createBlock => exact createBlock_keeps
  | createLabelled label => exact createLabelled_keeps label
  | switchTo => exact modify_keeps fun _ => rfl
  | const => exact define_keeps fun _ => rfl
  | copy => exact defineLike_keeps fun _ => rfl
  | binary => exact defineLike_keeps fun _ => rfl
  | unary => exact defineLike_keeps fun _ => rfl
  | compare => exact define_keeps fun _ => rfl
  | select => exact defineLike_keeps fun _ => rfl
  | alloca => exact define_keeps fun _ => rfl
  | load => exact define_keeps fun _ => rfl
  | store => exact push_keeps rfl
  | loadGlobal => exact define_keeps fun _ => rfl
  | storeGlobal => exact push_keeps rfl
  | call f args => exact call_keeps f args
  | callIndirect => exact defineUnlessVoid_keeps fun _ => rfl
  | inlineAsm => exact defineUnlessVoid_keeps fun _ => rfl
  | functionRef => exact define_keeps fun _ => rfl
  | terminate t => exact terminate_keeps t
  | phi ty => exact phi_keeps ty
  | incoming b r pred v => exact incoming_keeps b r pred v

theorem Module.create_numbered (name : String) : (Module.create name).Numbered := by
  refine ⟨?_, ?_, ?_, ?_, ?_⟩ <;> exact fun _ _ h => nomatch h

theorem Assembly.Reachable.numbered {a : Assembly} (h : a.Reachable) : a.module.Numbered := by
  induction h with
  | create name => exact Module.create_numbered name
  | step hb _ hrun ih => exact (hb.keepsNumbers _ _ _ (Assembly.holds_nil ih) hrun).1

inductive Module.Rewrites (m : Module) : Module → Prop
  | splitBlock {key : FuncId} {f g : Function} {b : BlockId} {index : Nat} {tail : Option BlockId}
      (hf : m.function? key = some f) (h : f.splitBlock b index = .ok (g, tail)) :
      Rewrites m (m.setFunction key g)
  | removeDeadBlocks {key : FuncId} {f : Function} (hf : m.function? key = some f) :
      Rewrites m (m.setFunction key f.removeDeadBlocks)
  | demote {key : FuncId} {f g : Function} {n : SpillCount} (hf : m.function? key = some f)
      (h : Spill.demote f = .ok (.ok (g, n))) : Rewrites m (m.setFunction key g)
  | inline {n : Module} {caller : FuncId} {op : OpId} {inlined : Inlined}
      (h : Inline.inlineCall m caller op = .ok (.ok (n, inlined))) : Rewrites m n
  | build {n : Module} {caller callee : FuncId} {calls : List OpId} {site : Option Site}
      (h : Site.build m caller callee calls = .ok (n, site)) : Rewrites m n
  | extend {n : Module} {site : Site} {op : OpId} {joined : Bool}
      (h : site.extend m op = .ok (n, joined)) : Rewrites m n
  | merge {key : FuncId} {f g : Function} {s other : Site} {merged : Bool}
      (hf : m.function? key = some f) (h : s.merge f other = .ok (g, merged)) :
      Rewrites m (m.setFunction key g)
  | functionPass {key : FuncId} {f g : Function} {p : FunctionPass} {r : Report}
      (hf : m.function? key = some f) (h : p.transform f = .ok (g, r)) :
      Rewrites m (m.setFunction key g)
  | pass {n : Module} {p : Pass} {r : Report} (h : p.run m = .ok (n, r)) : Rewrites m n
  | rounds {s t : Rounds} {e : Option FusionFault} (hs : s.module = m) (h : s.run = .ok (t, e)) :
      Rewrites m t.module
  | fusion {n : Module} {settings : Settings} {r : Except FusionFault Report}
      (h : Fusion.run settings m = .ok (n, r)) : Rewrites m n
  | pipeline {n : Module} {p : Pipeline} {r : Report} (h : p.run m = .ok (n, r)) : Rewrites m n

theorem Module.Numbered.setHeaded {m : Module} {key : FuncId} {f g : Function} (h : m.Numbered)
    (hf : m.function? key = some f) (hg : f.Numbered → g.Numbered ∧ g.header = f.header) :
    (m.setFunction key g).Numbered := by
  obtain ⟨hn, hhead⟩ := hg (h.function key f hf)
  exact h.setFunction hf hn (congrArg Header.id hhead)

theorem Module.Rewrites.numbered {m n : Module} (hr : m.Rewrites n) (h : m.Numbered) :
    n.Numbered := by
  cases hr with
  | splitBlock hf hs =>
    exact h.setHeaded hf fun hn => ((Function.numbered_iff.mp hn).splitBlock hs).numbered trivial trivial
  | removeDeadBlocks hf =>
    exact h.setHeaded hf fun hn => (Function.numbered_iff.mp hn).removeDeadBlocks.numbered trivial trivial
  | demote hf hd => exact h.setHeaded hf fun hn => Spill.demote_numbered hn hd
  | inline hi => exact Inline.inlineCall_numbered h hi
  | build hb => exact Site.build_numbered h hb
  | extend he => exact Site.extend_numbered h he
  | merge hf hm => exact h.setHeaded hf fun hn => Site.merge_numbered hn hm
  | functionPass hf hp => exact h.setHeaded hf fun hn => FunctionPass.transform_numbered _ hn hp
  | pass hp => exact passes_numbered.pass Fusion.standard_numbered _ _ _ _ hp h
  | rounds hs hrun => exact Rounds.run_numbered (hs ▸ h) hrun
  | fusion hf => exact Fusion.run_numbered h hf
  | pipeline hp => exact passes_numbered.pipeline Fusion.standard_numbered _ _ _ _ hp h

/-- Everything that can be assembled is numbered, and every rewriting of a numbered module gives
one. -/
theorem numbered_of_reachable_of_rewrites :
    (∀ a : Assembly, a.Reachable → a.module.Numbered) ∧
      ∀ m n : Module, m.Rewrites n → m.Numbered → n.Numbered :=
  ⟨fun _ h => h.numbered, fun _ _ hr h => hr.numbered h⟩

/-- A function with two calls of another one is assembled, the calls are fused, and the call that is
left is inlined. -/
theorem exists_assembled_fused_inlined :
    ∃ (a : Assembly) (n l : Module) (site : Site) (op : OpId) (inlined : Inlined), a.Reachable ∧
      Site.build a.module ⟨1⟩ ⟨0⟩ [⟨1⟩, ⟨2⟩] = .ok (n, some site) ∧ site.call = some op ∧
      Inline.inlineCall n ⟨1⟩ op = .ok (.ok (l, inlined)) ∧
      l.functionList.map (fun f => f.graph.blocks.size) = [1, 7] := by
  have h₀ := Assembly.Reachable.create "m"
  have h₁ := h₀.step (.startFunction "leaf" [("x", .i64)] .i64 (by decide)) rfl
  have h₂ := h₁.step (.binary .add (.reg ⟨0⟩) (.const (.i64 1))) rfl
  have h₃ := h₂.step (.terminate (.ret (some (.reg ⟨1⟩)))) rfl
  have h₄ := h₃.step .finishFunction rfl
  have h₅ := h₄.step (.startFunction "main" [("x", .i64)] .i64 (by decide)) rfl
  have h₆ := h₅.step (.call ⟨0⟩ [.reg ⟨0⟩]) rfl
  have h₇ := h₆.step (.call ⟨0⟩ [.reg ⟨1⟩]) rfl
  have h₈ := h₇.step (.terminate (.ret (some (.reg ⟨2⟩)))) rfl
  have h₉ := h₈.step .finishFunction rfl
  exact ⟨_, _, _, _, _, _, h₉, rfl, rfl, rfl, by decide +kernel⟩

theorem exists_reachable_rewritten : ∃ (a : Assembly) (n l : Module), a.Reachable ∧
    a.module.Rewrites n ∧ n.Rewrites l ∧ a.module.Numbered ∧ n.Numbered ∧ l.Numbered ∧
      l.functionList.map (fun f => f.graph.blocks.size) = [1, 7] := by
  obtain ⟨a, n, l, site, op, inlined, ha, hbuild, -, hinline, hsizes⟩ :=
    exists_assembled_fused_inlined
  obtain ⟨hassembled, hrewritten⟩ := numbered_of_reachable_of_rewrites
  have hm := hassembled a ha
  have hn := hrewritten a.module n (.build hbuild) hm
  have hl := hrewritten n l (.inline hinline) hn
  exact ⟨a, n, l, ha, .build hbuild, .inline hinline, hm, hn, hl, hsizes⟩

end SiteFusion
