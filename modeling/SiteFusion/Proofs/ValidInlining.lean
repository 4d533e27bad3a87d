import SiteFusion.Proofs.GraftedScopes
import SiteFusion.Proofs.LawfulCalls

namespace SiteFusion

open List Option

open Inline

/-- A module that inlining may rely on: it is valid, functions and blocks are listed under their own
numbers, all numbers come from their counters, entry blocks have no phis, and trap blocks are
intact. -/
structure Module.Orderly (m : Module) : Prop where
  valid : m.findings = []
  functionKey : ∀ k f, m.function? k = some f → f.id = k
  bounded : ∀ k f, m.function? k = some f → f.Bounded
  entry : ∀ k f, m.function? k = some f → ∀ c, f.proc.code f.graph.entry = some c → c.phis = []
  trap : ∀ k f, m.function? k = some f → f.Trapped

deriving instance DecidableEq for Code

instance (f : Function) : Decidable f.Trapped :=
  inferInstanceAs (Decidable (∀ t ∈ f.trap, t ≠ f.graph.entry ∧ f.proc.code t = some .dead))

variable {f : Function} {k : FuncId} {m : Module}

theorem Module.orderly_iff : m.Orderly ↔ m.findings = [] ∧
    ∀ k f, m.functions.get? k = some f →
      f.id = k ∧ f.Bounded ∧ (∀ c ∈ f.proc.code f.graph.entry, c.phis = []) ∧ f.Trapped :=
  ⟨fun h => ⟨h.valid, fun k f hf => ⟨h.functionKey k f hf, h.bounded k f hf, h.entry k f hf,
      h.trap k f hf⟩⟩,
    fun ⟨hv, h⟩ => ⟨hv, fun k f hf => (h k f hf).1, fun k f hf => (h k f hf).2.1,
      fun k f hf => (h k f hf).2.2.1, fun k f hf => (h k f hf).2.2.2⟩⟩

theorem Module.valid_of_findings (h : m.findings = []) (hk : m.Keyed) (hf : m.function? k = some f)
    (hd : f.isDeclaration = false) : f.Valid m :=
  (Function.findings_eq_nil_iff (hk.block k f hf) hd).mp
    (flatMap_eq_nil_iff.mp h f (Table.mem_values_iff.mpr ⟨k, hf⟩))

theorem Module.Orderly.keyed (h : m.Orderly) : m.Keyed :=
  ⟨h.functionKey, fun k f hf => (h.bounded k f hf).blockKey⟩

theorem Module.Orderly.functionValid (h : m.Orderly) (hf : m.function? k = some f)
    (hd : f.isDeclaration = false) : f.Valid m :=
  Module.valid_of_findings h.valid h.keyed hf hd

namespace Graft

variable {G : Graft} {p q p' : Proc} {k : BlockId} {c : Code}

theorem mem_hoist {i : Instruction} (h : i ∈ (G.hoist p q k c).body) :
    i ∈ c.body ∨ i ∈ q.allocas.map G.names.instruction := by
  unfold hoist at h
  split at h
  · rcases mem_append.mp h with h | h
    · exact (mem_append.mp h).imp_left fun h => (takeWhile_sublist _).mem h
    · exact .inl ((dropWhile_sublist _).mem h)
  · exact .inl h

theorem Joins.exists_call (h : G.Joins p q p') (hc : p'.code k = some c) {d : Option Reg}
    {f : FuncId} {args : List Operand} (hi : .call d f args ∈ c.body) :
    ∃ k₀ c₀ d₀ args₀, (p.code k₀ = some c₀ ∨ q.code k₀ = some c₀) ∧
      .call d₀ f args₀ ∈ c₀.body ∧ args.length = args₀.length ∧ d.isSome = d₀.isSome := by
  have hold : ∀ c₀ : Code, .call d f args ∈ (G.hoist p q k c₀).body → .call d f args ∈ c₀.body :=
    fun _ hi => (mem_hoist hi).resolve_right fun h => nomatch isAlloca_of_mem h
  rcases h.origin hc with ⟨c₀, hc₀⟩ | rfl | ⟨k₀, ⟨c₀, hc₀⟩, rfl⟩
  · by_cases hb : k = G.block
    · subst hb
      cases h.head.symm.trans hc
      exact ⟨G.block, _, d, args, .inl h.call, mem_append_left _ (hold _ hi), rfl, rfl⟩
    · cases (h.old hb hc₀).symm.trans hc
      exact ⟨k, c₀, d, args, .inl hc₀, hold (c₀.retarget G.block G.tail) hi, rfl, rfl⟩
  · cases h.tail.symm.trans hc
    rcases mem_append.mp hi with hi | hi
    · rcases mem_binding_instructions hi with ⟨_, he⟩ | ⟨_, _, _, he, _⟩ <;> cases he
    · exact ⟨G.block, _, d, args, .inl h.call,
        mem_append_right _ (mem_cons_of_mem _ hi), rfl, rfl⟩
  · cases (h.copy hc₀).symm.trans hc
    obtain ⟨i, hi, he⟩ := List.mem_map.mp hi
    have hmem : i ∈ c₀.body := by
      split at hi
      · exact mem_of_mem_filter hi
      · exact hi
    cases i with
    | call d₀ f₀ args₀ =>
      cases he
      exact ⟨k₀, c₀, d₀, args₀, .inr hc₀, hmem, by simp, by simp⟩
    | _ => cases he

theorem Joins.exists_return (h : G.Joins p q p') (hc : p'.code k = some c) {v : Option Operand}
    (hv : c.exit = .ret v) : ∃ k₀ c₀, p.code k₀ = some c₀ ∧ c₀.exit = .ret v := by
  rcases h.origin hc with ⟨c₀, hc₀⟩ | rfl | ⟨k₀, ⟨c₀, hc₀⟩, rfl⟩
  · by_cases hk : k = G.block
    · subst hk
      cases h.head.symm.trans hc
      rw [exit_hoist] at hv
      cases hv
    · cases (h.old hk hc₀).symm.trans hc
      rw [exit_hoist] at hv
      exact ⟨k, c₀, hc₀, hv⟩
  · cases h.tail.symm.trans hc
    exact ⟨G.block, _, h.call, hv⟩
  · obtain ⟨c', hc', -, hexit⟩ := h.exists_copy hc₀
    cases hc.symm.trans hc'
    rw [hexit] at hv
    cases ht : c₀.exit <;> rw [ht] at hv <;> cases hv

end Graft

namespace Inline

variable {m : Module} {caller : FuncId} {f g callee : Function} {call : Call} {b : Block}
  {inlined : Inlined} {o : Operation Instruction}

theorem fits_of_inlineCall {op : OpId} {r : Module × Inlined} (hf : m.function? caller = some f)
    (hc : m.function? call.callee = some callee)
    (hl : f.graph.locateInstruction op = some (call.block, call.index))
    (hb : f.graph.block? call.block = some b) (ho : b.instructions[call.index]? = some o)
    (hk : o.kind = .call call.dest call.callee call.args)
    (hm : inlineCall m caller op = .ok (.ok r)) :
    callee.id ≠ caller ∧ callee.signature.varargs = false ∧
      call.args.length = callee.signature.params.length := by
  have hfind : findCall m caller op = .ok (.ok call) := by
    simp only [findCall, hf, hl, hb, bind_some, ho, hk]
  obtain ⟨found, h₁, hm⟩ := bind_eq_ok.mp hm
  cases hfind.symm.trans h₁
  simp only [hc, hf] at hm
  have hnone : fault? m caller callee call = none := by
    cases hfault : fault? m caller callee call with
    | none => rfl
    | some e =>
      rw [hfault] at hm
      cases hm
  unfold fault? at hnone
  simp only at hnone
  split at hnone
  · cases hnone
  · next hid =>
    split at hnone
    · cases hnone
    · split at hnone
      · cases hnone
      · next hvar =>
        split at hnone
        · cases hnone
        · next hlen => exact ⟨hid, Bool.eq_false_iff.mpr hvar, not_not.mp hlen⟩

theorem valid_setFunction (hg : g.signature = f.signature) (hf : m.function? caller = some f)
    {h : Function} (hv : h.Valid m) : h.Valid (m.setFunction caller g) := by
  refine ⟨hv.connected, hv.scopes, hv.ops, hv.defs, hv.trap, ?_, hv.returns⟩
  intro k c hc dest callee args hi
  obtain ⟨d, hd, haccepts, hvalue⟩ := hv.calls hc hi
  rw [Module.function?_setFunction]
  split
  · next he =>
    subst he
    cases hf.symm.trans hd
    rw [hf]
    refine ⟨g, rfl, hg ▸ haccepts, fun hs => ?_⟩
    rw [Function.returnsValue, hg]
    exact hvalue hs
  · exact ⟨d, hd, haccepts, hvalue⟩

theorem findings_setFunction (hm : m.findings = []) (hk : m.Keyed) (hf : m.function? caller = some f)
    (hsig : g.signature = f.signature) (hg : g.isDeclaration = false → g.graph.Keyed ∧ g.Valid m) :
    (m.setFunction caller g).findings = [] := by
  refine flatMap_eq_nil_iff.mpr fun e he => ?_
  obtain ⟨k, hk'⟩ := Table.mem_values_iff.mp he
  by_cases hd : e.isDeclaration = true
  · simp [Function.findings, hd]
  have hd : e.isDeclaration = false := by simpa using hd
  rcases Module.cases_of_setFunction hf hk' with ⟨rfl, rfl⟩ | ⟨-, hk'⟩
  · exact (Function.findings_eq_nil_iff (hg hd).1 hd).mpr (valid_setFunction hsig hf (hg hd).2)
  · refine (Function.findings_eq_nil_iff (hk.block k e hk') hd).mpr (valid_setFunction hsig hf ?_)
    exact Module.valid_of_findings hm hk hk' hd

theorem valid_adoptCollector (hv : g.Valid m) (callee : Function) :
    (adoptCollector g callee).Valid m := by
  unfold adoptCollector
  split
  · exact ⟨hv.connected, hv.scopes, hv.ops, hv.defs, hv.trap, hv.calls, hv.returns⟩
  · exact hv

theorem splice_header (hg : splice f callee call = .ok (g, some inlined)) :
    g.header = f.header := by
  have hany : ∀ (free : Prop) (e : Function),
      e.Lawful ⟨fun _ => True, fun _ => True, fun _ _ => True, False, free⟩ :=
    fun _ _ => ⟨False.elim, False.elim, fun _ _ _ => ⟨fun _ _ => False.elim,
      fun _ _ => Law.stands_of_plain ⟨⟨fun _ _ => trivial, fun _ _ => trivial⟩, fun _ _ => trivial⟩
        False.elim, False.elim⟩⟩
  exact (splice_leads (hany False f) (hany False callee) (fun _ _ _ => trivial) hg).header

theorem valid_splice (h : m.Orderly) (hf : m.function? caller = some f)
    (hd : f.isDeclaration = false) (hc : m.function? call.callee = some callee)
    (hcd : callee.isDeclaration = false) (hb : f.graph.block? call.block = some b)
    (ho : b.instructions[call.index]? = some o)
    (hk : o.kind = .call call.dest call.callee call.args)
    (hargs : call.args.length = callee.signature.params.length)
    (hg : splice f callee call = .ok (g, some inlined)) : g.Valid m := by
  have hvf := h.functionValid hf hd
  have hvc := h.functionValid hc hcd
  have hnf := (h.bounded _ f hf).numbered h.valid hf hd
  have hnc := (h.bounded _ callee hc).numbered h.valid hc hcd
  have hdest : o.kind.dest? = call.dest := by
    rw [hk]
    rfl
  obtain ⟨hng, hheader⟩ :=
    (splice_spare (Function.numbered_iff.mp hnf) (fun _ => hnc) hb ho hdest hg).numbered trivial trivial
  obtain ⟨G, hJ, -, -, -, -, -, htrap⟩ := splice_joins hnf hvf.connected (h.trap _ f hf) hnc
    hvc.connected.entry (h.trap _ callee hc) hb ho hk hargs hg
  constructor
  case connected => exact hJ.connected hvf.connected hvc.connected (h.entry _ callee hc)
  case scopes => exact hJ.scoped hvf.connected hvf.scopes hvc.connected hvc.scopes
  case ops => exact hng.opOnce
  case defs => exact hng.defOnce
  case trap =>
    intro t ht
    rcases htrap with he | ⟨k, hdead, he⟩
    · obtain ⟨-, hdead⟩ := h.trap _ f hf t (he ▸ ht)
      have hne : t ≠ G.block := by
        rintro rfl
        exact hJ.block_ne_dead (Option.some.inj (hJ.call.symm.trans hdead))
      exact ⟨_, hJ.old hne hdead, Graft.exit_hoist⟩
    · cases he.symm.trans ht
      refine ⟨_, hJ.copy hdead, ?_⟩
      split <;> rfl
  case calls =>
    intro k c hc dest target args hi
    obtain ⟨k₀, c₀, d₀, args₀, hc₀, hi₀, hlen, hsome⟩ := hJ.exists_call hc hi
    rw [hlen, hsome]
    rcases hc₀ with hc₀ | hc₀
    · exact hvf.calls hc₀ hi₀
    · exact hvc.calls hc₀ hi₀
  case returns =>
    intro k c hc v hv
    obtain ⟨k₀, c₀, hc₀, hv₀⟩ := hJ.exists_return hc hv
    rw [hvf.returns hc₀ hv₀]
    exact congrArg (fun h => !h.signature.result.isVoid) hheader.symm

/-- Inlining a call keeps a module valid. -/
theorem inlineCall_valid {n : Module} {op : OpId} {inlined : Inlined} (h : m.Orderly)
    (hm : inlineCall m caller op = .ok (.ok (n, inlined))) : n.findings = [] := by
  obtain ⟨f, callee, call, b, o, g, hf, hc, hcd, hl, hb, ho, hk, hg, rfl⟩ := inlineCall_eq_ok hm
  obtain ⟨-, -, hargs⟩ := fits_of_inlineCall hf hc hl hb ho hk hm
  have hface := (face_adoptCollector g callee).trans (Function.face_eq_of_header (splice_header hg))
  refine findings_setFunction h.valid h.keyed hf (congrArg Header.signature hface) fun hd => ?_
  have hfd : f.isDeclaration = false := by
    rw [Function.isDeclaration, Bool.or_eq_false_iff] at hd ⊢
    rw [show (adoptCollector g callee).kind = f.kind from congrArg Header.kind hface] at hd
    exact ⟨hd.1, isEmpty_eq_false_iff_exists_mem.mpr ⟨_, Table.get?_eq_some_iff.mp hb⟩⟩
  have hnf := (h.bounded _ f hf).numbered h.valid hf hfd
  have hnc := (h.bounded _ callee hc).numbered h.valid hc hcd
  have hng := ((splice_spare (Function.numbered_iff.mp hnf) (fun _ => hnc) hb ho
    (by rw [hk]; rfl) hg).numbered trivial trivial).1
  exact ⟨(adoptCollector_numbered hng callee).1.blockKey,
    valid_adoptCollector (valid_splice h hf hfd hc hcd hb ho hk hargs hg) callee⟩

def valve : Module where
  name := "valve"
  functions := .ofList [
    (⟨0⟩, { Function.create ⟨0⟩ "clip" [("x", .i64)] .i64 with
      nextReg := 5
      trap := some ⟨3⟩
      graph := ⟨.ofList [
        (⟨0⟩, ⟨⟨0⟩, none, [],
          [.plain ⟨0⟩ (.alloca ⟨1⟩ .i64), .plain ⟨1⟩ (.store (.reg ⟨1⟩) (.reg ⟨0⟩)),
            .plain ⟨2⟩ (.compare ⟨2⟩ .lt (.reg ⟨0⟩) (.const (.i64 10)))],
          .plain ⟨3⟩ (.condBranch (.reg ⟨2⟩) ⟨1⟩ ⟨2⟩)⟩),
        (⟨1⟩, ⟨⟨1⟩, none, [],
          [.plain ⟨4⟩ (.load ⟨3⟩ (.reg ⟨1⟩) .i64),
            .plain ⟨5⟩ (.binary ⟨4⟩ .add (.reg ⟨3⟩) (.const (.i64 1)))],
          .plain ⟨6⟩ (.ret (some (.reg ⟨4⟩)))⟩),
        (⟨2⟩, ⟨⟨2⟩, none, [], [],
          .plain ⟨7⟩ (.switch (.reg ⟨0⟩) [(10, ⟨4⟩)] ⟨3⟩)⟩),
        (⟨3⟩, ⟨⟨3⟩, none, [], [], .plain ⟨8⟩ .unreachable⟩),
        (⟨4⟩, ⟨⟨4⟩, none, [], [], .plain ⟨9⟩ (.ret (some (.const (.i64 0))))⟩)], ⟨0⟩, 5, 10⟩ }),
    (⟨1⟩, { Function.create ⟨1⟩ "main" [("n", .i64)] .i64 with
      nextReg := 4
      graph := ⟨.ofList [
        (⟨0⟩, ⟨⟨0⟩, none, [], [], .plain ⟨0⟩ (.branch ⟨1⟩)⟩),
        (⟨1⟩, ⟨⟨1⟩, none,
          [.plain ⟨1⟩ ⟨⟨1⟩, [(⟨0⟩, .reg ⟨0⟩), (⟨1⟩, .reg ⟨2⟩)], .i64⟩],
          [.plain ⟨2⟩ (.call (some ⟨2⟩) ⟨0⟩ [.reg ⟨1⟩]),
            .plain ⟨3⟩ (.compare ⟨3⟩ .eq (.reg ⟨2⟩) (.const (.i64 0)))],
          .plain ⟨4⟩ (.condBranch (.reg ⟨3⟩) ⟨2⟩ ⟨1⟩)⟩),
        (⟨2⟩, ⟨⟨2⟩, none, [], [], .plain ⟨5⟩ (.ret (some (.reg ⟨1⟩)))⟩)], ⟨0⟩, 3, 6⟩ })]
  globals := .empty
  nextFunction := 2
  nextGlobal := 0

/-- The call in the loop of `valve` is inlined. -/
theorem inlineCall_valid_valve : valve.Orderly ∧ ∃ n inlined,
    inlineCall valve ⟨1⟩ ⟨2⟩ = .ok (.ok (n, inlined)) ∧
      (n.function? ⟨1⟩).map (fun f => (f.graph.blocks.keys, f.trap)) =
        some ([⟨0⟩, ⟨1⟩, ⟨2⟩, ⟨3⟩, ⟨4⟩, ⟨5⟩, ⟨6⟩, ⟨7⟩, ⟨8⟩], some ⟨7⟩) ∧ n.findings = [] := by
  have h : valve.Orderly := Module.orderly_iff.mpr ⟨by cbv, by decide +kernel⟩
  have hend : (inlineCall valve ⟨1⟩ ⟨2⟩).toOption.map (fun x => x.toOption.map fun y =>
      (y.1.function? ⟨1⟩).map fun f => (f.graph.blocks.keys, f.trap)) =
      some (some (some ([⟨0⟩, ⟨1⟩, ⟨2⟩, ⟨3⟩, ⟨4⟩, ⟨5⟩, ⟨6⟩, ⟨7⟩, ⟨8⟩], some ⟨7⟩))) := by
    cbv
  cases hrun : inlineCall valve ⟨1⟩ ⟨2⟩ with
  | error a =>
    rw [hrun] at hend
    cases hend
  | ok x =>
    rw [hrun] at hend
    cases x with
    | error a => cases hend
    | ok y =>
      exact ⟨h, y.1, y.2, rfl, Option.some.inj (Option.some.inj hend), inlineCall_valid h hrun⟩

end Inline

end SiteFusion
