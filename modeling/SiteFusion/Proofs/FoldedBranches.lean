import SiteFusion.Proofs.LawfulTransforms
import SiteFusion.Proofs.NumberedRounds
import SiteFusion.Proofs.PrunedCode
import SiteFusion.Proofs.Recodings

namespace SiteFusion

open List Option

namespace Function

variable {f : Function}

theorem perm_defs (f : Function) : f.defs.Perm (f.signature.params.map Param.reg ++
    (f.graph.blockList.flatMap (fun b => b.phis.map fun p => p.kind.dest) ++
      f.instructions.filterMap fun o => o.kind.dest?)) := by
  refine List.Perm.append_left _ ?_
  rw [instructions, filterMap_flatMap]
  exact (flatMap_append_perm _ _ _).symm

theorem eq_of_defs (hn : f.defs.Nodup) {o o' : Operation Instruction} {r : Reg}
    (ho : o ∈ f.instructions) (ho' : o' ∈ f.instructions) (hr : o.kind.dest? = some r)
    (hr' : o'.kind.dest? = some r) : o = o' := by
  have hnodup := (nodup_append.mp (nodup_append.mp (f.perm_defs.nodup hn)).2.1).2.1
  exact eq_of_nodup_filterMap hnodup ho ho' hr hr'

theorem not_param_of_defs (hn : f.defs.Nodup) {o : Operation Instruction} {r : Reg}
    (ho : o ∈ f.instructions) (hr : o.kind.dest? = some r) :
    r ∉ f.signature.params.map Param.reg ∧
      ∀ b ∈ f.graph.blockList, r ∉ b.phis.map fun p => p.kind.dest := by
  obtain ⟨-, hrest, hdis⟩ := nodup_append.mp (f.perm_defs.nodup hn)
  obtain ⟨-, -, hdis'⟩ := nodup_append.mp hrest
  have hmem : r ∈ f.instructions.filterMap fun o => o.kind.dest? :=
    mem_filterMap.mpr ⟨o, ho, hr⟩
  refine ⟨fun hp => hdis r hp r (mem_append_right _ hmem) rfl, fun b hb hp => ?_⟩
  exact hdis' r (mem_flatMap.mpr ⟨b, hb, hp⟩) r hmem rfl

end Function

namespace Branches

variable {f g : Function} {b target : BlockId} {r : Reg} {c : Const}

theorem mem_of_lookup_constants (h : (constants f).lookup r = some c) :
    ∃ o ∈ f.instructions, o.kind = .const r c := by
  obtain ⟨l₁, l₂, hl, -⟩ := List.lookup_eq_some_iff.mp h
  have hmem : (r, c) ∈ constants f := by
    rw [hl]
    exact mem_append_right _ mem_cons_self
  obtain ⟨o, ho, hk⟩ := mem_filterMap.mp (mem_reverse.mp hmem)
  refine ⟨o, ho, ?_⟩
  split at hk
  · cases hk
    assumption
  · cases hk

theorem lookup_constants (hn : f.defs.Nodup) {o : Operation Instruction} (ho : o ∈ f.instructions)
    (hk : o.kind = .const r c) : (constants f).lookup r = some c := by
  have hmem : (r, c) ∈ constants f :=
    mem_reverse.mpr (mem_filterMap.mpr ⟨o, ho, by rw [hk]⟩)
  cases hl : (constants f).lookup r with
  | none =>
    have := lookup_eq_none_iff.mp hl (r, c) hmem
    simp at this
  | some d =>
    obtain ⟨o', ho', hk'⟩ := mem_of_lookup_constants hl
    cases Function.eq_of_defs hn ho ho' (by rw [hk]; rfl) (by rw [hk']; rfl)
    rw [hk] at hk'
    cases hk'
    rfl

theorem outcome?_mono {known known' : List (Reg × Const)} {t : Terminator}
    (hk : ∀ o c, resolve known o = some c → resolve known' o = some c)
    (h : outcome? known t = some target) : outcome? known' t = some target := by
  cases t with
  | condBranch x t e =>
    rw [outcome?] at h ⊢
    split at h
    · next hte =>
      rw [if_pos hte]
      exact h
    · next hte =>
      rw [if_neg hte]
      split at h
      · next b hres =>
        rw [hk x _ hres]
        exact h
      · cases h
  | switch x cases d =>
    obtain ⟨c, hc, h⟩ := bind_eq_some_iff.mp h
    exact bind_eq_some_iff.mpr ⟨c, hk x c hc, h⟩
  | branch t => cases h
  | ret v => cases h
  | unreachable => cases h

theorem eq_of_outcome? {known : List (Reg × Const)} {t : Terminator} {ρ : Regs}
    (hρ : ∀ r c, known.lookup r = some c → ∀ v, ρ r = some v → v = .ofConst c)
    (h : outcome? known t = some target) :
    (∀ l, leads ρ t = some (.goto l) → l = target) ∧ ∀ v, leads ρ t ≠ some (.back v) := by
  have hvalue : ∀ o c, resolve known o = some c → ∀ v, ρ.value o = some v → v = .ofConst c := by
    intro o c ho v hv
    cases o with
    | const d =>
      cases ho
      cases hv
      rfl
    | reg r => exact hρ r c ho v hv
  cases t with
  | condBranch x t e =>
    simp only [leads, ne_eq, bind_eq_bind, bind_eq_some_iff]
    refine ⟨?_, by rintro v ⟨w, -, b, -, ⟨⟩⟩⟩
    rintro l ⟨v, hv, b, hb, ⟨⟩⟩
    rw [outcome?] at h
    split at h
    · next hte =>
      cases h
      rw [hte, ite_self]
    · split at h
      · next b' hres =>
        cases h
        cases hvalue x _ hres v hv
        cases hb
        rfl
      · cases h
  | switch x cases d =>
    simp only [leads, ne_eq, bind_eq_bind, bind_eq_some_iff]
    refine ⟨?_, by rintro v ⟨w, -, i, -, ⟨⟩⟩⟩
    rintro l ⟨v, hv, i, hi, ⟨⟩⟩
    obtain ⟨c, hc, h⟩ := bind_eq_some_iff.mp h
    obtain ⟨j, hj, h⟩ := bind_eq_some_iff.mp h
    cases h
    cases hvalue x c hc v hv
    have hij : i = j := by
      cases c <;> simp_all [Value.ofConst, Value.integer?, Const.integer?]
    rw [hij]
  | branch t => cases h
  | ret v => cases h
  | unreachable => cases h

theorem foldBranch_eq_ok {block : Block} (hb : f.graph.block? b = some block)
    (hg : foldBranch f b target = .ok g) : g.header = f.header ∧ g.trap = f.trap ∧
      g.graph.nextOp.toNat = f.graph.nextOp.toNat + 1 ∧
      ∀ k, g.proc.code k = (f.proc.code k).map fun c =>
        ⟨if (block.successors.filter fun s => s ≠ target).contains k then
            c.phis.map fun q => q.removeIncoming b else c.phis,
          c.body, if k = b then .branch target else c.exit⟩ := by
  rw [foldBranch, hb] at hg
  obtain ⟨⟨f₁, branch⟩, h₁, hg⟩ := bind_eq_ok.mp hg
  cases hg
  obtain ⟨rfl, next, hnext, rfl⟩ := Function.op_eq_ok h₁
  refine ⟨rfl, rfl, hnext, fun k => ?_⟩
  simp only [Function.proc, Function.modifyBlock, Graph.modifyBlock, Graph.modifyBlocks,
    Graph.block?, Table.get?_mapWithKey, Table.get?_modify]
  cases f.graph.blocks.get? k with
  | none => simp
  | some s =>
    by_cases hk : k = b
    · simp only [hk, ↓reduceIte, map_some]
      split <;> simp [Block.code, Block.mapPhis, Operation.map, Function.comp_def]
    · simp only [hk, ↓reduceIte, map_some]
      split <;> simp [Block.code, Block.mapPhis, Operation.map, Function.comp_def]

theorem foldBranch_cases (f : Function) (b target : BlockId) :
    (∃ g, foldBranch f b target = .ok g ∧ g.graph.nextOp.toNat ≤ f.graph.nextOp.toNat + 1) ∨
      foldBranch f b target = .error (.exhausted .operation) ∧
        UInt32.size ≤ f.graph.nextOp.toNat + 1 := by
  cases hb : f.graph.block? b with
  | none => exact .inl ⟨f, by rw [foldBranch, hb], Nat.le_succ _⟩
  | some block =>
    by_cases hlt : f.graph.nextOp < 4294967295
    · have hok : ∃ g, foldBranch f b target = .ok g := by
        rw [foldBranch, hb]
        simp only [Function.op, Graph.op, Graph.freshOp, Counter.next, hlt, ↓reduceIte]
        exact ⟨_, rfl⟩
      obtain ⟨g, hg⟩ := hok
      exact .inl ⟨g, hg, Nat.le_of_eq (foldBranch_eq_ok hb hg).2.2.1⟩
    · have hle : 4294967295 ≤ f.graph.nextOp.toNat :=
        UInt32.le_iff_toNat_le.mp (UInt32.not_lt.mp hlt)
      refine .inr ⟨?_, by rw [UInt32.size]; omega⟩
      rw [foldBranch, hb]
      simp only [Function.op, Graph.op, Graph.freshOp, Counter.next, hlt, ↓reduceIte]
      rfl

/-- A function in which the branches `done` have been folded. -/
structure Folded (f : Function) (done : List (BlockId × BlockId)) (g : Function) : Prop where
  header : g.header = f.header
  trap : g.trap = f.trap
  prunes : f.proc.Prunes (outcome? (constants f)) g.proc
  there : ∀ k, (g.proc.code k).isSome = (f.proc.code k).isSome
  exit : ∀ x ∈ done, ∀ c, g.proc.code x.1 = some c → c.exit = .branch x.2

/-- A branch that can be folded. -/
def Foldable (f : Function) (x : BlockId × BlockId) : Prop :=
  ∃ c, f.proc.code x.1 = some c ∧ outcome? (constants f) c.exit = some x.2

theorem mem_foldable_iff (hk : f.graph.Keyed) {x : BlockId × BlockId} :
    x ∈ foldable f ↔ Foldable f x := by
  simp only [foldable, mem_filterMap, Foldable]
  constructor
  · rintro ⟨block, hm, hx⟩
    obtain ⟨t, ht, rfl⟩ := map_eq_some_iff.mp hx
    obtain ⟨k, hb⟩ := Table.mem_values_iff.mp hm
    rw [hk k block hb]
    exact ⟨block.code, Function.code_eq_some.mpr ⟨block, hb, rfl⟩, ht⟩
  · rintro ⟨c, hc, hx⟩
    obtain ⟨block, hb, rfl⟩ := Function.code_eq_some.mp hc
    refine ⟨block, Table.mem_values_iff.mpr ⟨x.1, hb⟩, ?_⟩
    rw [hk x.1 block hb]
    exact map_eq_some_iff.mpr ⟨x.2, hx, rfl⟩

theorem Folded.foldBranch {done : List (BlockId × BlockId)} {h : Function} (hg : Folded f done g)
    (hdone : ∀ x ∈ done, Foldable f x) (hx : Foldable f (b, target))
    (hh : Branches.foldBranch g b target = .ok h) : Folded f ((b, target) :: done) h := by
  obtain ⟨cf, hcf, hout⟩ := hx
  have hthere : (g.proc.code b).isSome := by
    rw [hg.there, hcf]
    rfl
  obtain ⟨c₀, hc₀⟩ := isSome_iff_exists.mp hthere
  obtain ⟨block, hb, rfl⟩ := Function.code_eq_some.mp hc₀
  obtain ⟨hheader, htrap, -, hcode⟩ := foldBranch_eq_ok hb hh
  have htarget : target ∈ block.successors := by
    obtain ⟨c, hc, -, -, hexit⟩ := hg.prunes.code hc₀
    cases hcf.symm.trans hc
    rcases hexit with he | ⟨t, ht, he⟩
    · rw [Block.successors, show block.terminator.kind = cf.exit from he]
      exact mem_successors_of_outcome? hout
    · cases hout.symm.trans ht
      rw [Block.successors, show block.terminator.kind = .branch target from he]
      exact mem_cons_self
  have hproc : h.proc.params = g.proc.params ∧ h.proc.varargs = g.proc.varargs ∧
      h.proc.entry = g.proc.entry := by
    simp only [Function.header, Header.mk.injEq] at hheader
    simp [Function.proc, hheader]
  refine ⟨hheader.trans hg.header, htrap.trans hg.trap, hg.prunes.step b
    (block.successors.filter fun s => s ≠ target) hproc.1 hproc.2.1 hproc.2.2 (fun a k => ?_)
    fun {k c''} hc'' => ?_, fun k => ?_, fun x hx c hc => ?_⟩
  · simp only [Proc.joins, hcode]
    by_cases ha : a = b
    · subst ha
      have hold : block.code.exit.successors = block.successors := rfl
      have hnew : (Terminator.branch target).successors = [target] := rfl
      rw [hc₀, Bool.eq_iff_iff]
      simp only [map_some, any_some, ↓reduceIte, hold, hnew, contains_iff_mem,
        mem_singleton, Bool.and_eq_true]
      constructor
      · rintro rfl
        simp [htarget]
      · rintro ⟨hk, hk'⟩
        by_contra hne
        simp [hk, hne] at hk'
    · cases g.proc.code a <;> simp [ha]
  · rw [hcode] at hc''
    obtain ⟨c', hc', rfl⟩ := map_eq_some_iff.mp hc''
    refine ⟨c', hc', rfl, rfl, ?_⟩
    by_cases hkb : k = b
    · refine .inr ⟨target, fun c hc => ?_, if_pos hkb⟩
      cases (hkb ▸ hc).symm.trans hcf
      exact hout
    · exact .inl (if_neg hkb)
  · rw [hcode, isSome_map]
    exact hg.there k
  · rw [hcode] at hc
    obtain ⟨c', hc', rfl⟩ := map_eq_some_iff.mp hc
    rcases mem_cons.mp hx with rfl | hx
    · exact if_pos rfl
    · dsimp only
      split
      · next hb' =>
        obtain ⟨d, hd, hx'⟩ := hdone x hx
        rw [hb'] at hd
        cases hcf.symm.trans hd
        cases hout.symm.trans hx'
        rfl
      · exact hg.exit x hx c' hc'

theorem Folded.foldAll {done todo : List (BlockId × BlockId)} {h : Function} (hg : Folded f done g)
    (hdone : ∀ x ∈ done, Foldable f x) (htodo : ∀ x ∈ todo, Foldable f x)
    (hh : Branches.foldAll todo g = .ok h) : Folded f (todo.reverse ++ done) h := by
  induction todo generalizing g done with
  | nil =>
    cases hh
    exact hg
  | cons x todo ih =>
    obtain ⟨b, t⟩ := x
    obtain ⟨g₁, h₁, hh⟩ := bind_eq_ok.mp hh
    have hx := htodo (b, t) mem_cons_self
    rw [reverse_cons, append_assoc]
    exact ih (hg.foldBranch hdone hx h₁) (forall_mem_cons.mpr ⟨hx, hdone⟩)
      (fun x hx => htodo x (mem_cons_of_mem _ hx)) hh

theorem foldAll_cases (todo : List (BlockId × BlockId)) (f : Function) :
    (∃ g, foldAll todo f = .ok g) ∨ foldAll todo f = .error (.exhausted .operation) ∧
      UInt32.size ≤ f.graph.nextOp.toNat + todo.length := by
  induction todo generalizing f with
  | nil => exact .inl ⟨f, rfl⟩
  | cons x todo ih =>
    obtain ⟨b, t⟩ := x
    rw [length_cons]
    rcases foldBranch_cases f b t with ⟨g, hg, hnext⟩ | ⟨he, hle⟩
    · simp only [foldAll, hg]
      rcases ih g with ⟨h, hh⟩ | ⟨he, hle⟩
      · exact .inl ⟨h, hh⟩
      · exact .inr ⟨he, by omega⟩
    · simp only [foldAll, he]
      exact .inr ⟨rfl, by omega⟩

theorem code_removeBlock (f : Function) (d k : BlockId) :
    (f.removeBlock d).proc.code k = if k = d then none else (f.proc.code k).map fun c =>
      { c with phis := if (f.graph.successorsOf d).contains k then
          c.phis.map fun q => q.removeIncoming d else c.phis } := by
  have hproc : (f.removeBlock d).proc.code k =
      ((f.graph.removeBlock d).block? k).map Block.code := rfl
  rw [hproc, Graph.removeBlock, Graph.successorsOf]
  cases hd : f.graph.block? d with
  | none =>
    by_cases hk : k = d
    · simp [hk, hd]
    · simp [hk, Function.proc, Function.comp_def]
  | some block =>
    simp only [Graph.modifyBlocks, Graph.block?, Table.get?_mapWithKey, Table.get?_erase,
      Function.proc]
    by_cases hk : k = d
    · simp [hk]
    · simp only [hk, ↓reduceIte]
      cases f.graph.blocks.get? k with
      | none => rfl
      | some s =>
        simp only [map_some]
        split <;> simp [Block.code, Block.mapPhis, Operation.map, Function.comp_def]

theorem prunes_removeBlocks {p : Proc} {fold : Terminator → Option BlockId} (l : List BlockId)
    (h : p.Prunes fold f.proc) : p.Prunes fold (l.foldl Function.removeBlock f).proc := by
  induction l generalizing f with
  | nil => exact h
  | cons d l ih =>
    refine ih (h.step d (f.graph.successorsOf d) rfl rfl ?_ (fun a k => ?_) fun {k c''} hc'' => ?_)
    · simp only [Function.proc, Function.removeBlock, Graph.removeBlock]
      split <;> rfl
    · simp only [Proc.joins, code_removeBlock]
      by_cases ha : a = d
      · subst ha
        simp only [↓reduceIte, any_none, decide_true, Bool.true_and, Function.proc,
          Graph.successorsOf]
        cases f.graph.block? a with
        | none => rfl
        | some s => simp [Block.code, Block.successors]
      · cases f.proc.code a <;> simp [ha]
    · rw [code_removeBlock] at hc''
      split at hc''
      · cases hc''
      · obtain ⟨c', hc', rfl⟩ := map_eq_some_iff.mp hc''
        exact ⟨c', hc', rfl, rfl, .inl rfl⟩

theorem trap_removeBlocks (l : List BlockId) {t : BlockId}
    (h : (l.foldl Function.removeBlock f).trap = some t) : f.trap = some t ∧ t ∉ l := by
  induction l generalizing f with
  | nil => exact ⟨h, not_mem_nil⟩
  | cons d l ih =>
    obtain ⟨ht, hl⟩ := ih h
    simp only [Function.removeBlock] at ht
    split at ht
    · cases ht
    · next hd =>
      refine ⟨ht, fun hm => ?_⟩
      rcases mem_cons.mp hm with rfl | hm
      · exact hd ht
      · exact hl hm

theorem code_removeDeadBlocks {k : BlockId} {c : Code}
    (hc : f.removeDeadBlocks.proc.code k = some c) : k ∈ f.graph.reachable ∧
      ∃ c₁, f.proc.code k = some c₁ ∧ c.exit = c₁.exit := by
  obtain ⟨b, hb, rfl⟩ := Function.code_eq_some.mp hc
  obtain ⟨hreach, b', hb', hkept⟩ := Function.of_block?_removeDeadBlocks hb
  exact ⟨hreach, b'.code, Function.code_eq_some.mpr ⟨b', hb', rfl⟩,
    congrArg Operation.kind hkept.terminator⟩

theorem exists_code_removeDeadBlocks {k : BlockId} (hk : k ∈ f.graph.reachable)
    (hs : (f.proc.code k).isSome) : ∃ c, f.removeDeadBlocks.proc.code k = some c := by
  obtain ⟨c, hc⟩ := isSome_iff_exists.mp hs
  obtain ⟨b, hb, rfl⟩ := Function.code_eq_some.mp hc
  obtain ⟨d, -, hblock⟩ := f.block?_removeDeadBlocks
  refine ⟨(d k b).code, Function.code_eq_some.mpr ⟨d k b, ?_, rfl⟩⟩
  rw [hblock, if_pos hk, hb]
  rfl

theorem edge_removeDeadBlocks {a b : BlockId} :
    f.removeDeadBlocks.proc.Edge a b ↔ a ∈ f.graph.reachable ∧ f.proc.Edge a b := by
  constructor
  · rintro ⟨c, hc, hb⟩
    obtain ⟨hreach, c₁, hc₁, hexit⟩ := code_removeDeadBlocks hc
    exact ⟨hreach, c₁, hc₁, hexit ▸ hb⟩
  · rintro ⟨ha, c₁, hc₁, hb⟩
    obtain ⟨c, hc⟩ := exists_code_removeDeadBlocks ha (by rw [hc₁]; rfl)
    obtain ⟨-, c₀, hc₀, hexit⟩ := code_removeDeadBlocks hc
    cases hc₁.symm.trans hc₀
    exact ⟨c, hc, hexit ▸ hb⟩

section

variable (hentry : (f.proc.code f.proc.entry).isSome)
  (htarget : ∀ {a b}, f.proc.Edge a b → (f.proc.code b).isSome)

include htarget in
theorem target_removeDeadBlocks {a b : BlockId} (he : f.removeDeadBlocks.proc.Edge a b) :
    (f.removeDeadBlocks.proc.code b).isSome := by
  obtain ⟨ha, he⟩ := edge_removeDeadBlocks.mp he
  have hb := f.graph.reachable_closed.2 a ha b (Function.edge_iff.mp he)
  obtain ⟨c, hc⟩ := exists_code_removeDeadBlocks hb (htarget he)
  rw [hc]
  rfl

include hentry in
theorem entry_removeDeadBlocks :
    (f.removeDeadBlocks.proc.code f.removeDeadBlocks.proc.entry).isSome := by
  have he : f.removeDeadBlocks.proc.entry = f.graph.entry :=
    congrArg Header.entry (Function.removeBlocks_frame f.deadBlocks f).1
  obtain ⟨c, hc⟩ := exists_code_removeDeadBlocks f.graph.reachable_closed.1 hentry
  rw [he, hc]
  rfl

include hentry htarget in
theorem exists_walk_removeDeadBlocks {k : BlockId} {c : Code}
    (hc : f.removeDeadBlocks.proc.code k = some c) : ∃ l, f.removeDeadBlocks.proc.Walk k l := by
  have hall : ∀ a ∈ f.graph.reachable, ∃ l, f.removeDeadBlocks.proc.Walk a l := by
    refine reach_induction (P := fun a => ∃ l, f.removeDeadBlocks.proc.Walk a l)
      (fun a ha b hb => ?_) _ (fun a ha => ?_) fun _ h => absurd h not_mem_nil
    · obtain ⟨l, w⟩ := ha
      obtain ⟨c, hc⟩ := isSome_iff_exists.mp w.isSome
      have he := edge_removeDeadBlocks.mpr ⟨(code_removeDeadBlocks hc).1,
        Function.edge_iff.mpr (mem_reverse.mp hb)⟩
      exact ⟨b :: l, .step w he (target_removeDeadBlocks htarget he)⟩
    · cases mem_singleton.mp ha
      have he : f.removeDeadBlocks.proc.entry = f.graph.entry :=
        congrArg Header.entry (Function.removeBlocks_frame f.deadBlocks f).1
      have w := Proc.Walk.start (entry_removeDeadBlocks hentry)
      rw [he] at w
      exact ⟨_, w⟩
  exact hall k (code_removeDeadBlocks hc).1

end

theorem mem_reachable_of_walk {k : BlockId} {l : List BlockId} (w : f.proc.Walk k l) :
    k ∈ f.graph.reachable := by
  obtain ⟨hentry, hclosed⟩ := f.graph.reachable_closed
  induction w with
  | start _ => exact hentry
  | step _ he _ ih => exact hclosed _ ih _ (Function.edge_iff.mp he)

/-- What is left of a function once its branches have been folded. -/
structure Simplified (f g : Function) : Prop where
  header : g.header = f.header
  trap : ∀ t, g.trap = some t → f.trap = some t ∧ (g.proc.code t).isSome
  prunes : f.proc.Prunes (outcome? (constants f)) g.proc
  connected : g.proc.Connected
  walk : ∀ {k c}, g.proc.code k = some c → ∃ l, g.proc.Walk k l
  settled : ∀ {k c}, g.proc.code k = some c → outcome? (constants f) c.exit = none

theorem Folded.settled (hk : f.graph.Keyed) (h : Folded f (foldable f).reverse g) {k : BlockId}
    {c : Code} (hc : g.proc.code k = some c) : outcome? (constants f) c.exit = none := by
  obtain ⟨c₀, hc₀, -, -, hexit⟩ := h.prunes.code hc
  cases hout : outcome? (constants f) c₀.exit with
  | none =>
    rcases hexit with he | ⟨t, ht, -⟩
    · rw [he, hout]
    · cases hout.symm.trans ht
  | some t =>
    have hmem : (k, t) ∈ foldable f := (mem_foldable_iff hk).mpr ⟨c₀, hc₀, hout⟩
    rw [h.exit (k, t) (mem_reverse.mpr hmem) c hc]
    rfl

theorem Folded.removeDeadBlocks {m : Module} (hf : f.Valid m) (hk : f.graph.Keyed)
    (h : Folded f (foldable f).reverse g) : Simplified f g.removeDeadBlocks := by
  have hheader : g.removeDeadBlocks.header = g.header :=
    (Function.removeBlocks_frame g.deadBlocks g).1
  have hprunes : f.proc.Prunes (outcome? (constants f)) g.removeDeadBlocks.proc :=
    prunes_removeBlocks g.deadBlocks h.prunes
  have hentry : (g.proc.code g.proc.entry).isSome := by
    rw [h.there, h.prunes.entry]
    exact hf.connected.entry
  have htarget : ∀ {a b}, g.proc.Edge a b → (g.proc.code b).isSome := by
    intro a b he
    rw [h.there]
    exact hf.connected.target (h.prunes.edge mem_successors_of_outcome? he)
  refine ⟨hheader.trans h.header, fun t ht => ?_, hprunes,
    hprunes.connected mem_successors_of_outcome? hf.connected (entry_removeDeadBlocks hentry)
      (target_removeDeadBlocks htarget), exists_walk_removeDeadBlocks hentry htarget,
    fun {k c} hc => ?_⟩
  · obtain ⟨ht, hl⟩ := trap_removeBlocks g.deadBlocks ht
    rw [h.trap] at ht
    obtain ⟨c, hc, -⟩ := hf.trap t ht
    have hsome : (g.proc.code t).isSome := by
      rw [h.there, hc]
      rfl
    have hreach : t ∈ g.graph.reachable := by
      by_contra hnot
      obtain ⟨b, hb⟩ := Table.contains_iff.mp (Function.isSome_code.mp hsome)
      exact hl (by simp [Function.deadBlocks, hnot, Table.mem_keys_iff.mpr ⟨b, hb⟩])
    obtain ⟨d, hd⟩ := exists_code_removeDeadBlocks hreach hsome
    exact ⟨ht, by rw [hd]; rfl⟩
  · obtain ⟨-, c₁, hc₁, hexit⟩ := code_removeDeadBlocks hc
    rw [hexit]
    exact h.settled hk hc₁

theorem simplified_of_transform {m : Module} {r : Report} (hf : f.Valid m) (hk : f.graph.Keyed)
    (h : transform f = .ok (g, r)) : Simplified f g := by
  obtain ⟨f₁, h₁, hg⟩ := bind_eq_ok.mp h
  have hstart : Folded f [] f := ⟨rfl, rfl, .refl hf.connected, fun _ => rfl,
    fun _ hx => absurd hx not_mem_nil⟩
  have hfolded := hstart.foldAll (fun _ hx => absurd hx not_mem_nil)
    (fun x hx => (mem_foldable_iff hk).mp hx) h₁
  rw [append_nil] at hfolded
  have hres := hfolded.removeDeadBlocks hf hk
  dsimp only at hg
  split at hg
  · cases hg
    exact hres
  · cases hg
    exact hres

namespace Simplified

variable {m : Module} (h : Simplified f g)

include h

theorem isDeclaration_eq (hd : f.isDeclaration = false) :
    g.isDeclaration = false := by
  have hkind : g.kind = f.kind := congrArg Header.kind h.header
  rw [Function.isDeclaration, Bool.or_eq_false_iff] at hd ⊢
  obtain ⟨b, hb⟩ := Table.contains_iff.mp (Function.isSome_code.mp h.connected.entry)
  exact ⟨hkind ▸ hd.1, isEmpty_eq_false_iff_exists_mem.mpr ⟨_, Table.get?_eq_some_iff.mp hb⟩⟩

theorem valid (hf : f.Valid m) (hn : g.Numbered) : g.Valid m where
  connected := h.connected
  scopes := h.prunes.scopes mem_successors_of_outcome? hf.scopes h.walk
  ops := hn.opOnce
  defs := hn.defOnce
  trap t ht := by
    obtain ⟨ht, hsome⟩ := h.trap t ht
    obtain ⟨c', hc'⟩ := isSome_iff_exists.mp hsome
    obtain ⟨c, hc, -, -, hexit⟩ := h.prunes.code hc'
    obtain ⟨c₀, hc₀, hout⟩ := hf.trap t ht
    cases hc.symm.trans hc₀
    rcases hexit with he | ⟨l, hl, -⟩
    · exact ⟨c', hc', he.trans hout⟩
    · rw [hout] at hl
      cases hl
  calls {k c'} hc' dest callee args hi := by
    obtain ⟨c, hc, hbody, -⟩ := h.prunes.code hc'
    exact hf.calls hc (hbody ▸ hi)
  returns {k c'} hc' v hv := by
    obtain ⟨c, hc, -, -, hexit⟩ := h.prunes.code hc'
    have hsig : g.signature = f.signature := congrArg Header.signature h.header
    rw [Function.returnsValue, hsig]
    rcases hexit with he | ⟨l, -, he⟩
    · exact hf.returns hc (he ▸ hv)
    · cases he.symm.trans hv

theorem transform_eq (hf : f.defs.Nodup) : transform g = .ok (g, .unchanged) := by
  have hresolve : ∀ o c, resolve (constants g) o = some c → resolve (constants f) o = some c := by
    intro o c ho
    cases o with
    | const d => exact ho
    | reg r =>
      obtain ⟨o, ho, hk⟩ := mem_of_lookup_constants ho
      obtain ⟨k, b, hb, ho⟩ := Function.mem_instructions.mp ho
      obtain ⟨c₀, hc₀, hbody, -⟩ := h.prunes.code (Function.code_eq_some.mpr ⟨b, hb, rfl⟩)
      obtain ⟨b₀, hb₀, rfl⟩ := Function.code_eq_some.mp hc₀
      have hmem : o.kind ∈ b₀.code.body := hbody ▸ List.mem_map_of_mem ho
      obtain ⟨o₀, ho₀, hk₀⟩ := List.mem_map.mp hmem
      exact lookup_constants hf (Function.mem_instructions.mpr ⟨k, b₀, hb₀, ho₀⟩) (hk₀.trans hk)
  have hfold : foldable g = [] := by
    refine filterMap_eq_nil_iff.mpr fun b hb => map_eq_none_iff.mpr ?_
    obtain ⟨k, hk⟩ := Table.mem_values_iff.mp hb
    have hnone := h.settled (Function.code_eq_some.mpr ⟨b, hk, rfl⟩)
    cases hout : outcome? (constants g) b.terminator.kind with
    | none => rfl
    | some t => exact absurd (hnone.symm.trans (outcome?_mono hresolve hout)) (by simp)
  have hdead : g.deadBlocks = [] := by
    refine filter_eq_nil_iff.mpr fun k hk => ?_
    obtain ⟨b, hb⟩ := Table.mem_keys_iff.mp hk
    obtain ⟨l, w⟩ := h.walk (Function.code_eq_some.mpr ⟨b, hb, rfl⟩)
    simpa using mem_reachable_of_walk w
  have hsame : g.removeDeadBlocks = g := by rw [Function.removeDeadBlocks, hdead, foldl_nil]
  rw [transform, hfold]
  simp only [foldAll, bind, Except.bind, hsame, hdead, length_nil, and_self, ↓reduceIte]
  rfl

/-- Registers that are set to constants hold them, and edges that are gone are not taken. -/
def coding (f g : Function) : Coding :=
  ⟨⟨id, id⟩, fun _ => True, fun r => (constants f).lookup r, g.proc.Edge⟩

omit h in
theorem sets {k : BlockId} {c : Code} (hn : f.defs.Nodup) (hc : f.proc.code k = some c)
    {i : Instruction} (hi : i ∈ c.body) : (coding f g).Sets i := by
  intro d hd x hx
  obtain ⟨b, hb, rfl⟩ := Function.code_eq_some.mp hc
  obtain ⟨o, ho, rfl⟩ := List.mem_map.mp hi
  obtain ⟨o', ho', hk⟩ := mem_of_lookup_constants hx
  rw [Function.eq_of_defs hn (Function.mem_instructions.mpr ⟨k, b, hb, ho⟩) ho' hd
    (by rw [hk]; rfl)]
  exact hk

omit h in
theorem known_eq_none (hn : f.defs.Nodup) {d : Reg} (hd : d ∈ f.proc.params ∨
    ∃ k c, f.proc.code k = some c ∧ d ∈ c.phis.map Phi.dest) : (coding f g).known d = none := by
  cases hx : (coding f g).known d with
  | none => rfl
  | some x =>
    obtain ⟨o, ho, hk⟩ := mem_of_lookup_constants hx
    obtain ⟨hparam, hphi⟩ := Function.not_param_of_defs hn ho (r := d) (by rw [hk]; rfl)
    rcases hd with hd | ⟨k, c, hc, hd⟩
    · exact absurd hd hparam
    · obtain ⟨b, hb, rfl⟩ := Function.code_eq_some.mp hc
      refine absurd ?_ (hphi b (Table.mem_values_iff.mpr ⟨k, hb⟩))
      simpa [Block.code] using hd

theorem recodes (hn : f.defs.Nodup) (key : FuncId) (cells : Table GlobalId Nat) :
    (Translation.replace m key g cells (.exact id) False).Recodes (coding f g) f.proc g.proc where
  params := h.prunes.params.trans (List.map_id _).symm
  bound d hd := ⟨fun _ _ he => he, known_eq_none hn (.inl hd)⟩
  varargs := h.prunes.varargs
  entry := h.prunes.entry
  code {k c} hk hc := by
    have hsome : (g.proc.code k).isSome := by
      rcases hk with rfl | ⟨s, he⟩
      · exact h.prunes.entry ▸ h.connected.entry
      · exact h.connected.target he
    obtain ⟨c', hc'⟩ := isSome_iff_exists.mp hsome
    obtain ⟨c₀, hc₀, hbody, hphis, hexit⟩ := h.prunes.code hc'
    cases hc.symm.trans hc₀
    refine ⟨c', hc', ?_, ?_, ?_⟩
    · rw [hphis]
      refine .map fun q hq => ⟨rfl, fun _ _ he => he, known_eq_none hn (.inr ⟨k, c, hc,
        List.mem_map_of_mem hq⟩), fun s o he ho => ⟨?_, fun _ _ => trivial⟩⟩
      have hkeep := Phi.incomingFor_keeping (q := q) (s := fun a => g.proc.joins a k) (a := s)
        (Proc.joins_iff.mpr he)
      rw [coding, Duplicates.Renaming.operand_same]
      exact hkeep.trans ho
    · rw [hbody]
      exact .same Pairing.faithful_exact rfl rfl fun i hi => ⟨fun v _ x hx =>
        ⟨x, hx, fun hm => hm.1 ▸ rfl⟩, fun _ _ _ _ => trivial, fun _ _ _ _ he => he, sets hn hc hi⟩
    · rcases hexit with he | ⟨t, ht, he⟩
      · rw [← he]
        exact Translation.exits_same rfl (fun _ _ _ _ => trivial) fun l hl => ⟨c', hc', hl⟩
      · intro ι ρ σ _ hknown
        obtain ⟨hgoto, hback⟩ := eq_of_outcome? hknown ht
        rw [he]
        refine ⟨fun l hl => ?_, fun v hv => absurd hv (hback v)⟩
        cases hgoto l hl
        exact ⟨rfl, c', hc', by rw [he]; exact mem_cons_self⟩

end Simplified

/-- Folding branches is exact. It only fails if there are no more numbers for the new branches. The
module stays valid, all blocks that are left can be reached, a second run finds nothing to do, and
calls that have a result have the same one, with the same memory and budget left behind. -/
theorem transform_exact {m : Module} {key : FuncId} (hm : m.findings = []) (hk : m.Keyed)
    (hb : ∀ k f, m.function? k = some f → f.Bounded) (hf : m.function? key = some f)
    (hd : f.isDeclaration = false) :
    transform f = .error (.exhausted .operation) ∧
        UInt32.size ≤ f.graph.nextOp.toNat + (foldable f).length ∨
      ∃ g r, transform f = .ok (g, r) ∧ (m.setFunction key g).findings = [] ∧
        (∀ k b, g.graph.block? k = some b → ∃ l, g.graph.Walk k l) ∧
        transform g = .ok (g, .unchanged) ∧
        ∀ machine : Machine, machine.module = m → ∀ callee args r v,
          machine.call callee args = (r, .ok v) →
          { machine with module := m.setFunction key g }.call callee args =
            ({ r with module := m.setFunction key g }, .ok v) := by
  have hv := Module.valid_of_findings hm hk hf hd
  rcases foldAll_cases (foldable f) f with ⟨f₁, h₁⟩ | ⟨he, hle⟩
  · right
    have hok : ∃ g r, transform f = .ok (g, r) := by
      simp only [transform, h₁, bind, Except.bind]
      split
      · exact ⟨_, _, rfl⟩
      · exact ⟨_, _, rfl⟩
    obtain ⟨g, r, hg⟩ := hok
    have hs := simplified_of_transform hv (hk.block key f hf) hg
    obtain ⟨hn, -⟩ := FunctionPass.transform_numbered .simplifyCfg
      ((hb key f hf).numbered hm hf hd) hg
    refine ⟨g, r, hg, Inline.findings_setFunction hm hk hf
      (congrArg Header.signature hs.header) fun _ => ⟨hn.blockKey, hs.valid hv hn⟩, fun k b hkb => ?_,
      hs.transform_eq hv.defs, ?_⟩
    · obtain ⟨l, w⟩ := hs.walk (Function.code_eq_some.mpr ⟨b, hkb, rfl⟩)
      exact ⟨l, Function.walk_iff.mp w⟩
    · rintro ⟨_, cells, memory, budget⟩ rfl callee args r v hcall
      have hsound := Translation.sound_replace Pairing.faithful_exact
        (fun _ _ _ {ι small large} hm => hm.1 ▸ rfl) hf ((hs.isDeclaration_eq hd).trans hd.symm)
        fun _ => hs.recodes hv.defs key cells
      exact hsound.call_same hcall
  · left
    refine ⟨?_, hle⟩
    simp only [transform, he]
    rfl

/-- A loop that is entered through a test of a constant, with a switch in it that leads to one block
in two cases. -/
def detour : Function :=
  { Function.create ⟨0⟩ "detour" [("n", .i64)] .i64 with
    graph := ⟨.ofList [
      (⟨0⟩, ⟨⟨0⟩, none, [], [.plain ⟨0⟩ (.const ⟨1⟩ (.bool true)),
          .plain ⟨1⟩ (.const ⟨2⟩ (.i64 2))],
        .plain ⟨2⟩ (.condBranch (.reg ⟨1⟩) ⟨1⟩ ⟨2⟩)⟩),
      (⟨1⟩, ⟨⟨1⟩, none, [.plain ⟨3⟩ ⟨⟨3⟩, [(⟨0⟩, .reg ⟨0⟩), (⟨3⟩, .reg ⟨5⟩)], .i64⟩], [],
        .plain ⟨4⟩ (.switch (.reg ⟨2⟩) [(1, ⟨2⟩), (2, ⟨3⟩), (3, ⟨3⟩)] ⟨2⟩)⟩),
      (⟨2⟩, ⟨⟨2⟩, none, [.plain ⟨5⟩ ⟨⟨4⟩, [(⟨0⟩, .const (.i64 7)), (⟨1⟩, .reg ⟨3⟩)], .i64⟩], [],
        .plain ⟨6⟩ (.branch ⟨4⟩)⟩),
      (⟨3⟩, ⟨⟨3⟩, none, [], [.plain ⟨7⟩ (.binary ⟨5⟩ .sub (.reg ⟨3⟩) (.const (.i64 1))),
          .plain ⟨8⟩ (.compare ⟨6⟩ .gt (.reg ⟨5⟩) (.const (.i64 0)))],
        .plain ⟨9⟩ (.condBranch (.reg ⟨6⟩) ⟨1⟩ ⟨4⟩)⟩),
      (⟨4⟩, ⟨⟨4⟩, none, [.plain ⟨10⟩ ⟨⟨7⟩, [(⟨2⟩, .reg ⟨4⟩), (⟨3⟩, .reg ⟨5⟩)], .i64⟩], [],
        .plain ⟨11⟩ (.ret (some (.reg ⟨7⟩)))⟩)], ⟨0⟩, 5, 12⟩
    nextReg := 8 }

theorem detour_exact : ∃ m : Module, m.functions.entries = [(⟨0⟩, detour)] ∧ m.findings = [] ∧
    ∃ g r, transform detour = .ok (g, r) ∧ g.graph.blocks.keys = [⟨0⟩, ⟨1⟩, ⟨3⟩, ⟨4⟩] ∧
      (m.setFunction ⟨0⟩ g).findings = [] ∧ transform g = .ok (g, .unchanged) := by
  let m : Module := ⟨"detours", .ofList [(⟨0⟩, detour)], .empty, 1, 0⟩
  have hm : m.findings = [] := by cbv
  have hk : m.Keyed := by decide
  have hb : ∀ k f, m.functions.get? k = some f → f.Bounded := by decide
  have hkeys : (transform detour).toOption.map (fun x => x.1.graph.blocks.keys) =
    some [⟨0⟩, ⟨1⟩, ⟨3⟩, ⟨4⟩] := by cbv
  refine ⟨m, rfl, hm, ?_⟩
  have hf : m.function? ⟨0⟩ = some detour := rfl
  rcases transform_exact hm hk hb hf rfl with ⟨he, -⟩ | ⟨g, r, hg, hv, -, hagain, -⟩
  · rw [he] at hkeys
    cases hkeys
  · rw [hg] at hkeys
    exact ⟨g, r, hg, Option.some.inj hkeys, hv, hagain⟩

end Branches

end SiteFusion
