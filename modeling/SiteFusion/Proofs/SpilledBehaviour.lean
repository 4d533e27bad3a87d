import SiteFusion.Proofs.SpilledRuns

namespace SiteFusion

open List Option Spill

variable {w : Reg} {ι : Placing} {ρ τ : Regs} {z : Value} {f g : Function} {l key : BlockId} {b b' : Block}
  {d : Spill.Definition} {tail : BlockId → List Reg}

def reloads (w : Reg) (ty : Ty) (vs : List Reg) : List Instruction := vs.map fun v => .load v (.reg w) ty

theorem silents_reloads (l : BlockId) (t : Terminator) (ty : Ty) (z : Value) {vs : List Reg}
    (hm : Matches w ι ρ τ) (hvs : ∀ v ∈ vs, w.index.toNat < v.index.toNat) : ∃ τ',
      Silents (some w) (⟨l, reloads w ty vs, t, τ⟩, some z) (⟨l, [], t, τ'⟩, some z) ∧
      Matches w ι ρ τ' ∧ ∀ v, v ∈ vs ∨ τ v = some z → τ' v = some z := by
  induction vs generalizing τ with
  | nil => exact ⟨τ, .refl, hm, fun v hv => hv.resolve_left not_mem_nil⟩
  | cons u vs ih =>
    obtain ⟨hu, hvs⟩ := forall_mem_cons.mp hvs
    obtain ⟨τ', hsil, hm', hτ'⟩ := ih (hm.load hu z) hvs
    refine ⟨τ', .head (.load rfl ?_) hsil, hm', fun v hv => hτ' v ?_⟩
    · rintro ⟨⟩
      exact Nat.lt_irrefl _ hu
    · by_cases hvu : v = u
      · exact .inr (hvu ▸ Regs.put_self ..)
      · rw [mem_cons] at hv
        refine hv.imp (fun hv => hv.resolve_left hvu) fun hv => ?_
        rwa [Regs.put_of_ne fun he => hvu (Option.some.inj he).symm]

theorem Spill.Spills.laced {tail : List Reg} {here : Bool} {r r' : List (Operation Instruction)}
    (h : Spills d w true tail here r r') : Laced (some d.reg) w (reloads w d.ty tail) here
      (r.map Operation.kind) (r'.map Operation.kind) := by
  induction h with
  | @done loads hl _ =>
    have hkind : loads.map Operation.kind = reloads w d.ty tail := by
      have := congrArg (List.map Prod.fst) hl
      rwa [List.map_map, List.map_map] at this
    rw [hkind]
    exact .done
  | keep _ ho _ ih => exact .keep (fun x hx => (Option.some.inj hx) ▸ ho rfl) ih
  | slot ho _ _ ih =>
    rw [map_cons, (Operation.told_eq.mp ho).1]
    exact .slot _ ih
  | reload ho hl hv _ ih =>
    rw [map_cons, map_cons, map_cons, (Operation.told_eq.mp hl).1]
    exact .reload _ rfl ho hv ih
  | define _ ho hs _ ih =>
    rw [map_cons, map_cons, map_cons, (Operation.told_eq.mp hs).1]
    exact .define rfl ho ih

theorem code_moved {c : Code} (h : Spill.Moved f d w tail g) (hc : f.proc.code l = some c) :
    ∃ c' body, g.proc.code l = some c' ∧ ReloadedExit d.reg (tail l) c.exit c'.exit ∧
      List.Forall₂ (ReloadedPhi d.reg tail) c.phis c'.phis ∧
      c'.phis.map Phi.dest = c.phis.map Phi.dest ∧
      c'.body = (if d.reg ∈ c.phis.map Phi.dest then [.store (.reg w) (.reg d.reg)] else []) ++ body ∧
      Laced (some d.reg) w (reloads w d.ty (tail l)) (decide (l = f.graph.entry)) c.body body ∧
      ∀ v ∈ tail l, w.index.toNat < v.index.toNat := by
  obtain ⟨b, hb, rfl⟩ := Function.code_eq_some.mp hc
  obtain ⟨b', hb', hrel⟩ := rel_some (h.block l) hb
  obtain ⟨s, hch, hs⟩ := id hrel
  have hphis := hrel.dests_phis
  refine ⟨_, _, Function.code_eq_some.mpr ⟨b', hb', rfl⟩, hrel.exit.2.2, ?_, ?_, ?_,
    hch.instructions.laced, hch.instructions.tail_lt⟩
  · rw [Block.code, Block.code, forall₂_map_left_iff, forall₂_map_right_iff]
    exact hrel.phis.imp fun _ _ hq => hq.2.2.2
  · simpa [Block.code, Function.comp_def] using hphis
  · rw [show b.code.phis.map Phi.dest = b.phis.map fun p => p.kind.dest from map_map]
    split at hs
    · next hd =>
      obtain ⟨store, hs, rfl⟩ := hs
      rw [if_pos hd, ← (Operation.told_eq.mp hs).1]
      rfl
    · next hd =>
      rw [if_neg hd, hs]
      rfl

theorem lookup_reloaded {es es' : List (BlockId × Operand)} {r : Reg}
    (h : List.Forall₂ (fun e e' => e'.1 = e.1 ∧
      (e'.2 = e.2 ∨ e.2 = .reg r ∧ ∃ v ∈ tail e.1, e'.2 = .reg v)) es es') {o : Operand}
    (ho : es.lookup l = some o) : ∃ o', es'.lookup l = some o' ∧
      (o' = o ∨ o = .reg r ∧ ∃ v ∈ tail l, o' = .reg v) := by
  induction h with
  | nil => cases ho
  | @cons e e' es es' he _ ih =>
    rw [lookup_cons] at ho ⊢
    rw [he.1]
    cases hl : l == e.1 with
    | false =>
      rw [hl] at ho
      exact ih ho
    | true =>
      rw [hl] at ho
      cases ho
      refine ⟨_, rfl, ?_⟩
      rw [eq_of_beq hl]
      exact he.2

theorem incomings_reloaded {qs qs' : List Phi} (hm : Matches w ι ρ τ)
    (h : List.Forall₂ (ReloadedPhi d.reg tail) qs qs') (hx : Carried id ι (ρ d.reg) (some z))
    (hτ : ∀ v ∈ tail l, τ v = some z) {vs : List Value} (hvs : incomings ρ l qs = some vs) :
    ∃ us, incomings τ l qs' = some us ∧ List.Forall₂ (Moved id ι) vs us ∧ vs.length = qs.length := by
  induction h generalizing vs with
  | nil =>
    cases hvs
    exact ⟨[], rfl, .nil, rfl⟩
  | cons hq _ ih =>
    obtain ⟨v, ws, hv, hws, rfl⟩ := incomings_cons.mp hvs
    obtain ⟨us, hus, hall, hlen⟩ := ih hws
    obtain ⟨o, ho, hv⟩ := bind_eq_some_iff.mp hv
    obtain ⟨o', ho', hcase⟩ := lookup_reloaded hq.2 ho
    have hcarried : Carried id ι (ρ.value o) (τ.value o') := by
      rcases hcase with rfl | ⟨rfl, u, hu, rfl⟩
      · exact Inlining.value_same hm.agree _
      · rw [Regs.value_reg, Regs.value_reg, hτ u hu]
        exact hx
    obtain ⟨v', hv', hmo⟩ := hcarried v hv
    exact ⟨v' :: us, incomings_cons.mpr ⟨v', us, bind_eq_some_iff.mpr ⟨o', ho', hv'⟩, hus, rfl⟩,
      .cons hmo hall, congrArg (· + 1) hlen⟩

section Dropped

variable {last : List Instruction} {p : Operation Phi} {index : Nat}

theorem laced_append (r : List Instruction) : Laced none w last false r (r ++ last) := by
  induction r with
  | nil => exact .done
  | cons i r ih => exact .keep nofun ih

theorem laced_slot (ty : Ty) (r r' : List Instruction) :
    Laced none w last true (r ++ r') (r ++ .alloca w ty :: (r' ++ last)) := by
  induction r with
  | nil => exact .slot ty (laced_append r')
  | cons i r ih => exact .keep nofun ih

theorem code_dropped {c : Code} (h : Dropped f key index p w g) (hc : f.proc.code l = some c) :
    ∃ c' body, g.proc.code l = some c' ∧ c'.exit = c.exit ∧
      (c'.phis = if l = key then c.phis.eraseIdx index else c.phis) ∧
      c'.body = (if l = key then [.load p.kind.dest (.reg w) p.kind.ty] else []) ++ body ∧
      Laced none w ((lastStore w p.tags p.kind.incoming l).map Prod.fst) (decide (l = f.graph.entry))
        c.body body := by
  obtain ⟨b, hb, rfl⟩ := Function.code_eq_some.mp hc
  obtain ⟨slot, load, stores, hslot, hload, hstores, hblock⟩ := h.blocks
  have hb' := hblock l
  rw [hb] at hb'
  refine ⟨_, (withSlot b l f.graph.entry slot ++ stores l).map Operation.kind,
    Function.code_eq_some.mpr ⟨_, hb', rfl⟩, rfl, ?_, ?_, ?_⟩
  · unfold unphied Block.code
    split <;> simp [eraseIdx_map]
  · unfold unphied Block.code
    split <;> simp [(Operation.told_eq.mp hload).1]
  · have hlast : (lastStore w p.tags p.kind.incoming l).map Prod.fst = (stores l).map Operation.kind := by
      rw [← hstores l, List.map_map]
      rfl
    rw [map_append, hlast]
    unfold withSlot
    split
    · next hl =>
      rw [decide_eq_true hl, map_append, map_cons, (Operation.told_eq.mp hslot).1]
      have hslot : Laced none w ((stores l).map Operation.kind) true _ _ := laced_slot p.kind.ty
        ((b.instructions.take b.allocaCount).map Operation.kind)
        ((b.instructions.drop b.allocaCount).map Operation.kind)
      rw [← map_append, take_append_drop] at hslot
      rw [append_assoc]
      exact hslot
    · next hl =>
      rw [decide_eq_false hl]
      exact laced_append _

theorem incomings_erased {qs : List Phi} {q : Phi} {vs : List Value} (hr : Coding.all.Agree id ι ρ τ)
    (hq : qs[index]? = some q) (hone : (qs.map Phi.dest).Nodup) (hvs : incomings ρ l qs = some vs) :
    ∃ o v us, q.incomingFor l = some o ∧ ρ.value o = some v ∧
      incomings τ l (qs.eraseIdx index) = some us ∧ ∀ {ρ' τ' z}, Coding.all.Agree id ι ρ' τ' →
        Moved id ι v z → Coding.all.Agree id ι (Regs.bind (qs.map Phi.dest) vs ρ')
          ((Regs.bind ((qs.eraseIdx index).map Phi.dest) us τ').put (some q.dest) (some z)) := by
  induction qs generalizing index vs with
  | nil => cases hq
  | cons q₀ qs ih =>
    obtain ⟨v₀, ws, hv₀, hws, rfl⟩ := incomings_cons.mp hvs
    obtain ⟨o₀, ho₀, hval⟩ := bind_eq_some_iff.mp hv₀
    obtain ⟨hq₀, hone⟩ := nodup_cons.mp hone
    cases index with
    | zero =>
      cases hq
      obtain ⟨us, hus, hall⟩ := incomings_same hr hws
      refine ⟨o₀, v₀, us, ho₀, hval, hus, fun hr' hm => ?_⟩
      rw [eraseIdx_cons_zero, Regs.put_bind hq₀]
      exact agree_bind (agree_put hr' (.some hm)) hall
    | succ index =>
      obtain ⟨z₀, hz₀, hm₀⟩ := Inlining.value_same hr o₀ v₀ hval
      obtain ⟨o, v, us, ho, hv, hus, hbind⟩ := ih hq hone hws
      exact ⟨o, v, z₀ :: us, ho, hv,
        incomings_cons.mpr ⟨z₀, us, bind_eq_some_iff.mpr ⟨o₀, ho₀, hz₀⟩, hus, rfl⟩, fun hr' hm =>
          hbind (agree_put hr' (.some hm₀)) hm⟩

end Dropped

section Lacing

variable (hn : f.Numbered) (hroot : ∀ k, ¬ f.proc.Edge k f.proc.entry)
include hn

theorem low_of_numbered (r : Reg) (hr : r ∈ f.proc.params ∨ f.proc.Defines r) :
    r.index.toNat < f.nextReg.toNat := by
  refine UInt32.lt_iff_toNat_lt.mp (hn.defBound r ?_)
  rcases hr with hr | ⟨k, c, hc, hr⟩
  · exact mem_append_left _ hr
  · obtain ⟨b, hb, rfl⟩ := Function.code_eq_some.mp hc
    exact (defs_sublist_of_block hb).subset (by rwa [Block.defs_code] at hr)

include hroot

theorem lacing_moved (h : Spill.Moved f d w tail g) (hd : d.In f) :
    Lacing (some d.reg) w
      (fun _ c => if d.reg ∈ c.phis.map Phi.dest then [.store (.reg w) (.reg d.reg)] else [])
      (fun l => reloads w d.ty (tail l)) f.proc g.proc where
  params := congrArg (fun h => h.signature.params.map Param.reg) h.header
  varargs := congrArg (fun h => h.signature.varargs) h.header
  entry := congrArg Header.entry h.header
  root := hroot
  low := h.cell ▸ low_of_numbered hn
  param := by
    rintro x ⟨⟩ hx
    obtain ⟨b, hb, hm⟩ := hd.mem_defs
    exact hn.distinct.param _ hx ⟨_, _, Function.code_eq_some.mpr ⟨b, hb, rfl⟩, by rwa [Block.defs_code]⟩
  code hc := by
    obtain ⟨c', body, hc', -, -, hdests, hbody, hlaced, -⟩ := code_moved h hc
    exact ⟨c', body, hc', hbody, hlaced, hdests ▸ Subset.refl _, fun hphis => by
      rw [hphis, map_nil, if_neg not_mem_nil]⟩
  leave := by
    intro ι l c c' ρ τ z hc hc' hm hx hs
    obtain ⟨_, -, hc'', hexit, -, -, -, -, htail⟩ := code_moved h hc
    cases hc'.symm.trans hc''
    obtain ⟨τ₁, hsil, hm₁, hτ₁⟩ := silents_reloads l c'.exit d.ty z hm htail
    have hexit' : ∃ h, c'.exit = c.exit.mapOperands h ∧
        ∀ o, Carried id ι (ρ.value o) (τ₁.value (h o)) := by
      rcases hexit with he | ⟨v, hv, he⟩
      · exact ⟨id, by rw [he, Terminator.mapOperands_id], Inlining.value_same hm₁.agree⟩
      · exact ⟨_, he, hm₁.operand (hx _ rfl) (hτ₁ v (.inl hv))⟩
    obtain ⟨h₁, he, hops⟩ := hexit'
    refine ⟨h₁, τ₁, z, he, hops, hsil, fun {l₁ c₁ c₁' vs body} hc₁ hc₁' hvs => ?_⟩
    obtain ⟨_, -, hc₁'', -, hphis, hdests, -⟩ := code_moved h hc₁
    cases hc₁'.symm.trans hc₁''
    obtain ⟨us, hus, hall, hlen⟩ :=
      incomings_reloaded hm₁ hphis (hx _ rfl) (fun v hv => hτ₁ v (.inl hv)) hvs
    have hm₂ := hm₁.bind (fun r hr => h.cell ▸ low_of_numbered hn r
      (.inr ⟨l₁, c₁, hc₁, mem_append_left _ hr⟩)) hall
    rw [hdests]
    by_cases hdef : d.reg ∈ c₁.phis.map Phi.dest
    · obtain ⟨v, hv⟩ := ne_none_iff_exists'.mp
        (Regs.bind_ne_none (ρ := ρ) (.inl ⟨hdef, by rw [length_map, hlen]⟩))
      obtain ⟨v', hv', hmo⟩ := hm₂.agree d.reg trivial v hv
      refine ⟨us, _, v', hus, ?_, hm₂, ?_⟩
      · rw [if_pos hdef]
        exact .single (.store rfl hv')
      · rintro x ⟨⟩ u hu
        cases hv.symm.trans hu
        exact ⟨v', rfl, hmo⟩
    · refine ⟨us, _, z, hus, ?_, hm₂, ?_⟩
      · rw [if_neg hdef]
        exact .refl
      · rintro x ⟨⟩
        rw [Regs.bind_of_not_mem hdef]
        exact hx _ rfl

theorem lacing_dropped {index : Nat} {p : Operation Phi} {c : Code} (h : Dropped f key index p w g)
    (hkey : f.proc.code key = some c) (hp : c.phis[index]? = some p.kind)
    (hsure : ∀ l r, (l, .reg r) ∈ p.kind.incoming → (f.proc.code l).isSome → f.proc.Sure l r) :
    Lacing none w (fun l _ => if l = key then [.load p.kind.dest (.reg w) p.kind.ty] else [])
      (fun l => (lastStore w p.tags p.kind.incoming l).map Prod.fst) f.proc g.proc where
  params := congrArg (fun h => h.signature.params.map Param.reg) h.header
  varargs := congrArg (fun h => h.signature.varargs) h.header
  entry := congrArg Header.entry h.header
  root := hroot
  low := h.cell ▸ low_of_numbered hn
  param := nofun
  code := by
    intro l c₀ hc
    obtain ⟨c', body, hc', -, hphis', hbody, hlaced⟩ := code_dropped h hc
    refine ⟨c', body, hc', hbody, hlaced, ?_, fun hphis => if_neg ?_⟩
    · rw [hphis']
      split
      · exact ((eraseIdx_sublist ..).map _).subset
      · exact Subset.refl _
    · rintro rfl
      cases hkey.symm.trans hc
      rw [hphis] at hp
      cases hp
  leave := by
    intro ι l c₀ c' ρ τ z hc hc' hm _ hs
    obtain ⟨_, -, hc'', hexit, -⟩ := code_dropped h hc
    cases hc'.symm.trans hc''
    -- The store is done whichever way the block is left, so what it reads has to have a value.
    have hstore : ∃ z₁, Silents (some w)
        (⟨l, (lastStore w p.tags p.kind.incoming l).map Prod.fst, c'.exit, τ⟩, some z)
        (⟨l, [], c'.exit, τ⟩, some z₁) ∧ ∀ o v, p.kind.incomingFor l = some o → ρ.value o = some v →
          Moved id ι v z₁ := by
      unfold lastStore
      cases ho : p.kind.incoming.lookup l with
      | none => exact ⟨z, .refl, fun _ _ ho' => (some_ne_none _ (ho'.symm.trans ho)).elim⟩
      | some o =>
        have hval : ρ.value o ≠ none := by
          cases o with
          | const c => exact some_ne_none _
          | reg r => exact hs r (hsure l r (mem_of_lookup ho) (by rw [hc]; rfl))
        obtain ⟨v, hv⟩ := ne_none_iff_exists'.mp hval
        obtain ⟨z₁, hz₁, hmo⟩ := Inlining.value_same hm.agree o v hv
        refine ⟨z₁, .single (.store rfl hz₁), fun o' v' ho' hv' => ?_⟩
        cases ho.symm.trans ho'
        cases hv.symm.trans hv'
        exact hmo
    obtain ⟨z₁, hsil, hz₁⟩ := hstore
    refine ⟨id, τ, z₁, by rw [hexit, Terminator.mapOperands_id], Inlining.value_same hm.agree, hsil,
      fun {l₁ c₁ c₁' vs body} hc₁ hc₁' hvs => ?_⟩
    obtain ⟨_, -, hc₁'', -, hphis, -⟩ := code_dropped h hc₁
    cases hc₁'.symm.trans hc₁''
    have hlow : ∀ r ∈ c₁.phis.map Phi.dest, r.index.toNat < w.index.toNat := fun r hr =>
      h.cell ▸ low_of_numbered hn r (.inr ⟨l₁, c₁, hc₁, mem_append_left _ hr⟩)
    by_cases hk : l₁ = key
    · subst hk
      cases hkey.symm.trans hc₁
      rw [if_pos rfl] at hphis
      obtain ⟨o, v, us, ho, hv, hus, hbind⟩ := incomings_erased hm.agree hp
        (nodup_append.mp (hn.distinct.block hc₁)).1 hvs
      have hne : ∀ r ∈ c.phis.map Phi.dest, some w ≠ some r := by
        rintro r hr ⟨⟩
        exact Nat.lt_irrefl _ (hlow w hr)
      have hdest := hne _ (List.mem_map_of_mem (mem_of_getElem? hp))
      refine ⟨us, _, z₁, hphis ▸ hus, ?_, ⟨hbind hm.agree (hz₁ o v ho hv), hm.low_bind hlow, ?_⟩, nofun⟩
      · rw [if_pos rfl, hphis]
        exact .single (.load rfl hdest)
      · refine (hm.hides.bind (fun r hr => hne r ?_) us).put (forall_mem_some.mpr hdest) _
        exact ((eraseIdx_sublist ..).map _).subset hr
    · rw [if_neg hk] at hphis
      obtain ⟨us, hus, hall⟩ := incomings_same hm.agree hvs
      refine ⟨us, _, z₁, hphis ▸ hus, ?_, hm.bind hlow hall, nofun⟩
      rw [if_neg hk, hphis]
      exact .refl

end Lacing

section Refines

variable {cells : Table GlobalId Nat} {memory : Array Value} {E E' E'' : Program} {m : Module}
  {budget : Nat} {k : FuncId}

theorem Refines.trans (h : Refines cells memory E E') (h' : Refines cells memory E' E'') :
    Refines cells memory E E'' := by
  intro f args v memory₀ n hargs hv hy
  obtain ⟨memory₁, n₁, hy₁, hsame₁⟩ := h f args v memory₀ n hargs hv hy
  obtain ⟨memory₂, n₂, hy₂, hsame₂⟩ := h' f args v memory₁ n₁ hargs hv hy₁
  exact ⟨memory₂, n₂, hy₂, fun c x hc hx hp => hsame₂ c x hc (hsame₁ c x hc hx hp) hp⟩

theorem refines_of_follows {f₀ : Function} (hm : Machine.Closed ⟨m, cells, memory, budget⟩)
    (hf : m.function? k = some f₀) {R : Link} {cell : Option Reg} (h : R.Follows cell f.proc g.proc)
    (hg : f.isDeclaration = false → g.isDeclaration = false) :
    Refines cells memory (m.setFunction k f).program (m.setFunction k g).program := by
  refine hm.refines fun hι hm hargs => Scheme.yields ⟨_, _, fun k' => if k' = k then cell else none,
    fun k' => if k' = k then R else Link.same, ?_⟩ hι hm hargs
  intro k' p hp
  obtain ⟨f₁, hf₁, hd, rfl⟩ := Module.program_eq_some.mp hp
  by_cases hk : k' = k
  · subst hk
    rw [Module.function?_setFunction_self hf] at hf₁
    cases hf₁
    rw [if_pos rfl, if_pos rfl]
    exact ⟨_, Module.program_eq_some.mpr ⟨g, Module.function?_setFunction_self hf, hg hd, rfl⟩, h⟩
  · rw [if_neg hk, if_neg hk]
    refine ⟨_, Module.program_eq_some.mpr ⟨f₁, ?_, hd, rfl⟩, Link.follows_same _⟩
    rw [Module.function?_setFunction, if_neg hk] at hf₁ ⊢
    exact hf₁

end Refines

namespace Spill

/-- The condition that the values of a function can be moved to memory, where those that are `left`
are still to be moved: what a phi reads at the end of a block has a value there. -/
def Ready (left : List Definition) (f : Function) : Prop :=
  fault? f = none ∧ ∀ {k c}, f.proc.code k = some c → ∀ q ∈ c.phis, ∀ {l r},
    (l, .reg r) ∈ q.incoming → (f.proc.code l).isSome → f.proc.Sure l r ∨ ∃ d ∈ left, d.reg = r

variable {left : List Definition} {index : Nat} {p : Operation Phi}

theorem Ready.root (h : Ready left f) (k : BlockId) : ¬ f.proc.Edge k f.proc.entry := by
  rintro ⟨c, hc, hmem⟩
  obtain ⟨b, hb, rfl⟩ := Function.code_eq_some.mp hc
  exact (fault?_eq_none_iff.mp h.1).2 k b hb hmem

theorem Ready.isDeclaration (h : Ready left g) (hh : g.header = f.header)
    (hf : f.isDeclaration = false) : g.isDeclaration = false := by
  obtain ⟨b, hb⟩ := isSome_iff_exists.mp (fault?_eq_none_iff.mp h.1).1
  rw [Function.isDeclaration, Bool.or_eq_false_iff] at hf ⊢
  rw [show g.kind = f.kind from congrArg Header.kind hh]
  exact ⟨hf.1, isEmpty_eq_false_iff_exists_mem.mpr ⟨_, Table.get?_eq_some_iff.mp hb⟩⟩

theorem Ready.sure (h : Ready [] f) {c : Code} (hc : f.proc.code key = some c) {q : Phi}
    (hq : q ∈ c.phis) (l : BlockId) (r : Reg) (hr : (l, .reg r) ∈ q.incoming)
    (hl : (f.proc.code l).isSome) : f.proc.Sure l r := by
  rcases h.2 hc q hq hr hl with hs | ⟨d, hd, -⟩
  · exact hs
  · cases hd

theorem Ready.moved (hn : f.Numbered) (h : Ready (d :: left) f) (hm : Moved f d w tail g)
    (hd : d.In f) : Ready left g := by
  have hL := lacing_moved hn h.root hm hd
  refine ⟨(hm.grown (N := fun _ => True) (D := fun _ => True) (n := 0) (fun _ _ _ => trivial) trivial
    (Nat.zero_le _)).fault?_eq_none h.1, fun {k c} hc q hq l r hr hl => ?_⟩
  have hold : ∀ {l c'}, g.proc.code l = some c' → ∃ c, f.proc.code l = some c := by
    intro l c' hc'
    obtain ⟨b', hb', -⟩ := Function.code_eq_some.mp hc'
    obtain ⟨b, hb, -⟩ := rel_some_right (hm.block l) hb'
    exact ⟨_, Function.code_eq_some.mpr ⟨b, hb, rfl⟩⟩
  obtain ⟨c₀, hc₀⟩ := hold hc
  obtain ⟨_, -, hc', -, hphis, -⟩ := code_moved hm hc₀
  cases hc.symm.trans hc'
  obtain ⟨q₀, hq₀, -, hinc⟩ := forall₂_exists_left hphis hq
  obtain ⟨e, he, hkey, hop⟩ := forall₂_exists_left hinc hr
  obtain ⟨c₁, hc₁⟩ := isSome_iff_exists.mp hl
  obtain ⟨c₂, hc₂⟩ := hold hc₁
  rcases hop with hop | ⟨-, v, hv, hop⟩
  · rw [show e = (l, .reg r) from Prod.ext hkey.symm hop.symm] at he
    rcases h.2 hc₀ q₀ hq₀ he (by rw [hc₂]; rfl) with hsure | ⟨d', hd', hdr⟩
    · exact .inl (hL.sure hsure)
    · rcases mem_cons.mp hd' with rfl | hd'
      · obtain ⟨b, hb, rfl⟩ := Function.code_eq_some.mp hc
        obtain ⟨o, ho, rfl⟩ := List.mem_map.mp hq
        obtain ⟨s, hs, -⟩ := Function.code_eq_some.mp hc₁
        have hnone := (hm.cleared k b hb).2 l ⟨o, ho, hdr ▸ hr⟩
        exact (some_ne_none _ (hs.symm.trans hnone)).elim
      · exact .inr ⟨d', hd', hdr⟩
  · -- The phi reads what is reloaded at the end of the block.
    cases hop
    cases hkey
    exact .inl (hL.sure_of_mem (.inr rfl) hc₂ (mem_append_right _ (List.mem_map_of_mem hv)) rfl)

theorem Ready.dropped (hn : f.Numbered) (h : Ready [] f) (hm : Dropped f key index p w g)
    (hb : f.graph.block? key = some b) (hp : b.phis[index]? = some p) :
    Ready [] g ∧ ∃ first last, Lacing none w first last f.proc g.proc := by
  have hkey := Function.code_eq_some.mpr ⟨b, hb, rfl⟩
  have hp' : b.code.phis[index]? = some p.kind := by simp [Block.code, hp]
  have hL := lacing_dropped hn h.root hm hkey hp' (h.sure hkey (mem_of_getElem? hp'))
  have hphi : ∀ b', f.graph.block? key = some b' → b'.phis[index]? = some p := by
    intro b' hb'
    cases hb.symm.trans hb'
    exact hp
  refine ⟨⟨(hm.grown hphi (N := fun _ => True) (D := fun _ => True) (n := 0) (fun _ _ _ _ _ => trivial)
    (Nat.zero_le _)).fault?_eq_none h.1, fun {k c} hc q hq l r hr hl => .inl ?_⟩, _, _, hL⟩
  have hold : ∀ {l c'}, g.proc.code l = some c' → ∃ c, f.proc.code l = some c := by
    intro l c' hc'
    obtain ⟨b', hb', -⟩ := Function.code_eq_some.mp hc'
    obtain ⟨b, hb, -⟩ := hm.cases_block hphi hb'
    exact ⟨_, Function.code_eq_some.mpr ⟨b, hb, rfl⟩⟩
  obtain ⟨c₀, hc₀⟩ := hold hc
  obtain ⟨_, -, hc', -, hphis, -⟩ := code_dropped hm hc₀
  cases hc.symm.trans hc'
  have hq₀ : q ∈ c₀.phis := by
    rw [hphis] at hq
    split at hq
    · exact mem_of_mem_eraseIdx hq
    · exact hq
  obtain ⟨c₁, hc₁⟩ := isSome_iff_exists.mp hl
  obtain ⟨c₂, hc₂⟩ := hold hc₁
  exact hL.sure (h.sure hc₀ hq₀ l r hr (by rw [hc₂]; rfl))

section Demote

variable {m : Module} {k : FuncId} {n : SpillCount} (hf : m.function? k = some f) (hn : f.Numbered)
  (hread : Ready (definitions f) f) (hg : demote f = .ok (.ok (g, n)))
include hf hn hread hg

theorem demote_refines {cells : Table GlobalId Nat} {memory : Array Value} {budget : Nat}
    (hm : Machine.Closed ⟨m, cells, memory, budget⟩) :
    Refines cells memory m.program (m.setFunction k g).program := by
  rw [demote, hread.1] at hg
  obtain ⟨f₁, h₁, hg⟩ := bind_eq_ok.mp hg
  obtain ⟨⟨f₂, count⟩, h₂, hg⟩ := bind_eq_ok.mp hg
  cases hg
  have hstart : Ready (escaping f) f := by
    refine ⟨hread.1, fun {k c} hc q hq l r hr hl => (hread.2 hc q hq hr hl).imp_right ?_⟩
    rintro ⟨d, hd, hdr⟩
    obtain ⟨b, hb, rfl⟩ := Function.code_eq_some.mp hc
    obtain ⟨o, ho, rfl⟩ := List.mem_map.mp hq
    exact exists_escaping_of_phi hb ho hr hd hdr
  have hsame : (m.setFunction k f).program = m.program := by
    funext k'
    by_cases hk : k' = k
    · simp [Module.program, hk, Module.function?_setFunction_self hf, hf]
    · simp [Module.program, Module.function?_setFunction, hk]
  have hvalues : f₁.Numbered ∧ Ready [] f₁ ∧
      Refines cells memory m.program (m.setFunction k f₁).program := by
    refine demoteValues_induction (Q := fun left g => g.Numbered ∧ Ready left g ∧
      Refines cells memory m.program (m.setFunction k g).program) ?_ hn (fun d hd =>
        Definition.in_of_mem hn (definitions_of_escaping hd)) ⟨hn, hstart, hsame ▸ .refl _⟩ h₁
    rintro d left g w tail g' ⟨-, hready, hrefines⟩ hn hn' hd hmoved
    have hready' := hready.moved hn hmoved hd
    exact ⟨hn', hready', hrefines.trans (refines_of_follows hm hf
      (lacing_moved hn hready.root hmoved hd).follows (hready'.isDeclaration hmoved.header))⟩
  refine (demotePhis_induction (Q := fun g => Ready [] g ∧
    Refines cells memory m.program (m.setFunction k g).program) ?_ hvalues.1 hvalues.2 h₂).2
  rintro g key b index p w g' ⟨hready, hrefines⟩ hn - hb hp hdropped
  obtain ⟨hready', _, _, hL⟩ := hready.dropped hn hdropped hb hp
  exact ⟨hready', hrefines.trans (refines_of_follows hm hf hL.follows
    (hready'.isDeclaration hdropped.header))⟩

/-- Moving the values of a function to memory keeps what every call does that has a result and is
given no pointers, if each register that a phi reads at the end of a block is a parameter, is defined
in that block or in the entry block, or is defined by something else than an allocation. -/
theorem demote_preserves : ∀ machine : Machine, machine.module = m → machine.Closed → ∀ h args r v,
    (∀ c, .ptr c ∉ args) → (∀ c, v ≠ some (.ptr c)) → machine.call h args = (r, .ok v) →
    ∃ budget r', { machine with module := m.setFunction k g, budget := budget }.call h args =
        (r', .ok v) ∧
      ∀ name x, r.global? name = some x → (∀ c, x ≠ .ptr c) → r'.global? name = some x := by
  exact Machine.call_refines rfl fun hclosed => demote_refines hf hn hread hg hclosed

end Demote

def juggling : Module where
  name := "juggling"
  functions := .ofList [(⟨0⟩, juggler)]
  globals := .empty
  nextFunction := 1
  nextGlobal := 0

theorem demote_preserves_juggler : Ready (definitions juggler) juggler ∧
    ∃ g n budget r', demote juggler = .ok (.ok (g, n)) ∧
      { Machine.ofModule juggling 100 with
        module := juggling.setFunction ⟨0⟩ g, budget := budget }.call ⟨0⟩ [.i64 12] =
          (r', .ok (some (.i64 1))) := by
  have hphis : ∀ k b, juggler.graph.blocks.get? k = some b → ∀ q ∈ b.phis, ∀ e ∈ q.kind.incoming,
      ∀ r ∈ e.2.reg?, r ∈ juggler.proc.params ∨ ∃ d ∈ definitions juggler, d.reg = r := by
    decide +kernel
  have hread : Ready (definitions juggler) juggler := by
    refine ⟨by decide +kernel, fun {k c} hc q hq l r hr _ => ?_⟩
    obtain ⟨b, hb, rfl⟩ := Function.code_eq_some.mp hc
    obtain ⟨o, ho, rfl⟩ := List.mem_map.mp hq
    exact (hphis k b hb o ho _ hr r rfl).imp_left .inl
  have hsome : ∃ g n, demote juggler = .ok (.ok (g, n)) := ⟨_, _, rfl⟩
  obtain ⟨g, n, hg⟩ := hsome
  have hrun : ((Machine.ofModule juggling 100).call ⟨0⟩ [.i64 12]).2 = .ok (some (.i64 1)) := by
    decide +kernel
  obtain ⟨budget, r', hr', -⟩ := demote_preserves (m := juggling) (k := ⟨0⟩) rfl numbered_juggler
    hread hg _ rfl (Machine.closed_ofModule juggling 100) ⟨0⟩ [.i64 12] _ (some (.i64 1)) (by simp)
    (by simp) (Prod.ext rfl hrun)
  exact ⟨hread, g, n, budget, r', hg, hr'⟩

end Spill

end SiteFusion
