import SiteFusion.Proofs.FoldedBranches

namespace SiteFusion

open List Option

theorem Table.keys_mapWithKey {κ ν μ : Type} (t : Table κ ν) (f : κ → ν → μ) :
    (t.mapWithKey f).keys = t.keys :=
  keys_mapEntries f t.entries

theorem Table.keys_filter {κ ν : Type} (t : Table κ ν) (p : κ → Bool) :
    (t.filter fun k _ => p k).keys = t.keys.filter p :=
  filter_map.symm

namespace Function

variable {f : Function}

theorem phiFault_eq_none_iff {k : BlockId} {preds : List BlockId} {p : Operation Phi} :
    Graph.phiFault k preds p.kind = none ↔ f.phiFindings k preds p = [] := by
  have hcount : ∀ pred, (if (p.kind.incoming.filter fun e => e.1 = pred).length = 1 then none
      else some (f.finding k p.id (.incomingCount k pred
        (p.kind.incoming.filter fun e => e.1 = pred).length))) = none ↔
      (p.kind.incoming.filter fun e => e.1 = pred).length = 1 := by
    intro pred
    split <;> simp_all
  simp only [Graph.phiFault, phiFindings, or_eq_none_iff, map_eq_none_iff, find?_eq_none,
    append_eq_nil_iff, map_eq_nil_iff, filter_eq_nil_iff, filterMap_eq_nil_iff, hcount,
    decide_eq_true_eq, ne_eq, Decidable.not_not]

theorem fault?_graph_eq_none_iff (hk : f.graph.Keyed) :
    f.graph.fault? = none ↔ f.proc.Connected := by
  have hentry : f.entryFindings = [] ↔ f.graph.predecessors f.graph.entry = [] := by
    rw [entryFindings]
    cases f.graph.predecessors f.graph.entry <;> simp
  have hedge : ∀ e : BlockId × Block, f.edgeFindings e.1 e.2 = [] ↔
      e.2.successors.find? (fun s => !f.graph.blocks.contains s) = none := by
    intro e
    rw [edgeFindings_eq_nil_iff, find?_eq_none]
    simp
  rw [connected_iff hk, hentry, Graph.fault?]
  by_cases hc : f.graph.blocks.contains f.graph.entry = true
  · by_cases hp : f.graph.predecessors f.graph.entry = []
    · simp only [hc, hp, Bool.not_true, isEmpty_nil, Bool.false_eq_true, ↓reduceIte, true_and,
        findSome?_eq_none_iff, Graph.blockFault, or_eq_none_iff, map_eq_none_iff,
        phiFault_eq_none_iff (f := f), hedge, flatMap_eq_nil_iff]
    · simp [hc, hp]
  · simp [hc]

end Function

namespace Proc

variable {p p' : Proc} {b t : BlockId} {c : Code} {n : Nat}

theorem Connected.cut (hp : p.Connected) (hc : p.code b = some c) (ht : p.code t = none)
    (hentry : p'.entry = p.entry) (hcode : ∀ k, p'.code k =
      if k = b then some ⟨c.phis.map fun q => q.retarget b t, c.body.take n, .branch t⟩
      else if k = t then some ⟨[], c.body.drop n, c.exit⟩
      else (p.code k).map fun c => c.retarget b t) : p'.Connected := by
  have hne : t ≠ b := by
    rintro rfl
    cases hc.symm.trans ht
  have htarget : ∀ a, ¬ p.Edge a t := by
    intro a ha
    have hsome := hp.target ha
    rw [ht] at hsome
    cases hsome
  have hsource : ∀ k, ¬ p.Edge t k := by
    rintro k ⟨d, hd, -⟩
    cases ht.symm.trans hd
  have hsome : ∀ k, (p'.code k).isSome ↔ k = t ∨ (p.code k).isSome := by
    intro k
    rw [hcode]
    by_cases hkb : k = b
    · simp [hkb, hc]
    · by_cases hkt : k = t
      · simp [hkt, hne]
      · simp [hkb, hkt]
  -- the only new edge leads from the first part to the second
  have hedge : ∀ a k, p'.Edge a k ↔
      a = b ∧ k = t ∨ a = t ∧ p.Edge b k ∨ a ≠ b ∧ p.Edge a k := by
    intro a k
    rw [Edge, hcode]
    by_cases hab : a = b
    · subst hab
      simp [Terminator.successors, Ne.symm hne]
    · by_cases hat : a = t
      · subst hat
        have hk : p.Edge b k ↔ k ∈ c.exit.successors := by simp [Edge, hc]
        simp [hab, hk, hsource k]
      · simp [hab, hat, Edge, Code.retarget]
  -- a phi expects its values from the same blocks, but for the one that was cut
  have hfirst : ∀ q : Phi, (q.retarget b t).incoming.map Prod.fst =
      (q.incoming.map Prod.fst).map fun a => if a = b then t else a := by
    intro q
    simp [Phi.retarget]
  have hphis : ∀ {k d'}, p'.code k = some d' → k = t ∧ d'.phis = [] ∨ k ≠ t ∧
      ∃ d, p.code k = some d ∧ d'.phis = d.phis.map fun q => q.retarget b t := by
    intro k d' hd'
    rw [hcode] at hd'
    split at hd'
    · next hkb =>
      cases hd'
      exact .inr ⟨hkb ▸ Ne.symm hne, c, hkb ▸ hc, rfl⟩
    · split at hd'
      · next hkt =>
        cases hd'
        exact .inl ⟨hkt, rfl⟩
      · next hkt =>
        obtain ⟨d, hd, rfl⟩ := map_eq_some_iff.mp hd'
        exact .inr ⟨hkt, d, hd, rfl⟩
  refine ⟨?_, fun k he => ?_, fun {a k} he => ?_, fun {k d'} hd' q' hq' => ?_,
    fun {k d'} hd' q' hq' a => ?_⟩
  · rw [hsome, hentry]
    exact .inr hp.entry
  · rw [hentry, hedge] at he
    rcases he with ⟨-, hk⟩ | ⟨-, he⟩ | ⟨-, he⟩
    · have hs := hp.entry
      rw [hk, ht] at hs
      cases hs
    · exact hp.root b he
    · exact hp.root k he
  · rw [hsome]
    rcases (hedge a k).mp he with ⟨-, hk⟩ | ⟨-, he⟩ | ⟨-, he⟩
    · exact .inl hk
    · exact .inr (hp.target he)
    · exact .inr (hp.target he)
  · rcases hphis hd' with ⟨-, hnil⟩ | ⟨-, d, hd, hmap⟩
    · rw [hnil] at hq'
      cases hq'
    · rw [hmap] at hq'
      obtain ⟨q, hq, rfl⟩ := List.mem_map.mp hq'
      rw [hfirst]
      refine (hp.once hd q hq).map_on fun x hx y hy hxy => ?_
      have hxt : x ≠ t := fun h => hsource k (h ▸ (hp.source hd q hq x).mp hx)
      have hyt : y ≠ t := fun h => hsource k (h ▸ (hp.source hd q hq y).mp hy)
      by_cases hxb : x = b <;> by_cases hyb : y = b <;> simp_all
  · rcases hphis hd' with ⟨-, hnil⟩ | ⟨hkt, d, hd, hmap⟩
    · rw [hnil] at hq'
      cases hq'
    · rw [hmap] at hq'
      obtain ⟨q, hq, rfl⟩ := List.mem_map.mp hq'
      rw [hfirst, hedge]
      simp only [List.mem_map (f := fun a => if a = b then t else a), hp.source hd q hq]
      constructor
      · rintro ⟨x, hx, rfl⟩
        split
        · next hxb => exact .inr (.inl ⟨rfl, hxb ▸ hx⟩)
        · next hxb => exact .inr (.inr ⟨hxb, hx⟩)
      · rintro (⟨-, hk⟩ | ⟨rfl, he⟩ | ⟨hab, he⟩)
        · exact absurd hk hkt
        · exact ⟨b, he, if_pos rfl⟩
        · exact ⟨a, he, if_neg hab⟩

end Proc

namespace Graph

variable {g : Graph} {b : BlockId} {s : Block} {i : Nat}

/-- Everything in a graph is listed under the number it carries, and all numbers in use are below the
counters they come from. -/
structure Counted (g : Graph) : Prop where
  keyed : g.Keyed
  blockBound : ∀ k b, g.block? k = some b → k.index < g.nextBlock
  opBound : ∀ k b, g.block? k = some b → ∀ o ∈ b.opIds, o.index < g.nextOp

instance (g : Graph) : Decidable g.Counted :=
  decidable_of_iff (∀ k b, g.blocks.get? k = some b →
      b.id = k ∧ k.index < g.nextBlock ∧ ∀ o ∈ b.opIds, o.index < g.nextOp)
    ⟨fun h => ⟨fun k b hb => (h k b hb).1, fun k b hb => (h k b hb).2.1,
      fun k b hb => (h k b hb).2.2⟩,
      fun h k b hb => ⟨h.keyed k b hb, h.blockBound k b hb, h.opBound k b hb⟩⟩

theorem Counted.block?_next (h : g.Counted) : g.block? ⟨g.nextBlock⟩ = none := by
  cases hc : g.block? ⟨g.nextBlock⟩ with
  | none => rfl
  | some c => exact absurd (h.blockBound _ c hc) (UInt32.lt_irrefl _)

def HasRoom (g : Graph) : Prop := g.nextBlock < 4294967295 ∧ g.nextOp.toNat + 1 < 4294967295

def cut (g : Graph) (b : BlockId) (s : Block) (i : Nat) : Graph :=
  let tail : BlockId := ⟨g.nextBlock⟩
  { blocks := (((g.blocks.insert tail (.fresh tail ⟨g.nextOp⟩)).modify b fun s =>
        { s with
          instructions := s.instructions.take i
          terminator := ⟨⟨g.nextOp + 1⟩, .branch tail, .empty⟩ }).modify tail fun t =>
        { t with
          instructions := s.instructions.drop i
          terminator := s.terminator }).mapWithKey fun k c =>
      if s.successors.contains k then c.mapPhis fun q => q.retarget b tail else c
    entry := g.entry
    nextBlock := g.nextBlock + 1
    nextOp := g.nextOp + 1 + 1 }

theorem ne_next_of_block? (hb : g.block? b = some s) (hnone : g.block? ⟨g.nextBlock⟩ = none) :
    b ≠ ⟨g.nextBlock⟩ := by
  rintro rfl
  rw [hnone] at hb
  cases hb

theorem splitBlock_eq_cut (hb : g.block? b = some s) (hi : i ≤ s.instructions.length)
    (hnone : g.block? ⟨g.nextBlock⟩ = none) (hroom : g.HasRoom) :
    g.splitBlock b i = .ok (g.cut b s i, some ⟨g.nextBlock⟩) := by
  have hne := ne_next_of_block? hb hnone
  have hlt : ¬ s.instructions.length < i := Nat.not_lt.mpr hi
  have hop : g.nextOp < 4294967295 := UInt32.lt_iff_toNat_lt.mpr (Nat.lt_of_succ_lt hroom.2)
  have hadd : (g.nextOp + 1).toNat = g.nextOp.toNat + 1 := by
    rw [UInt32.toNat_add]
    exact Nat.mod_eq_of_lt (Nat.lt_trans hroom.2 (by decide))
  have hop' : g.nextOp + 1 < 4294967295 := by
    rw [UInt32.lt_iff_toNat_lt, hadd]
    exact hroom.2
  have hget : g.blocks.get? b = some s := hb
  have hb' : (g.blocks.insert ⟨g.nextBlock⟩ (.fresh ⟨g.nextBlock⟩ ⟨g.nextOp⟩)).get? b = some s := by
    rw [Table.get?_insert, if_neg hne]
    exact hget
  have htail : (((g.blocks.insert ⟨g.nextBlock⟩ (.fresh ⟨g.nextBlock⟩ ⟨g.nextOp⟩)).modify b
      fun s => { s with
        instructions := s.instructions.take i
        terminator := ⟨⟨g.nextOp + 1⟩, Terminator.branch ⟨g.nextBlock⟩, Tags.empty⟩ }).modify
      ⟨g.nextBlock⟩ fun t => { t with
        instructions := s.instructions.drop i
        terminator := s.terminator }).get? ⟨g.nextBlock⟩ =
      some ⟨⟨g.nextBlock⟩, none, [], s.instructions.drop i, s.terminator⟩ := by
    rw [Table.get?_modify, if_pos rfl, Table.get?_modify, if_neg (Ne.symm hne), Table.get?_insert,
      if_pos rfl]
    rfl
  simp only [splitBlock, hget, hlt, ↓reduceIte, createBlock, op, freshOp, Counter.next, hroom.1,
    hop, hop', bind, Except.bind, pure, Except.pure, block?, hb', modifyBlock, retargetPhis, htail]
  rfl

theorem splitBlock_of_not_hasRoom (hb : g.block? b = some s) (hi : i ≤ s.instructions.length)
    (hroom : ¬ g.HasRoom) : ∃ c, g.splitBlock b i = .error (.exhausted c) := by
  have hlt : ¬ s.instructions.length < i := Nat.not_lt.mpr hi
  simp only [splitBlock, hb, hlt, ↓reduceIte, createBlock, op, freshOp, Counter.next]
  by_cases hblock : g.nextBlock < 4294967295
  · by_cases hop : g.nextOp < 4294967295
    · have hlast : ¬ g.nextOp + 1 < 4294967295 := by
        intro h
        refine hroom ⟨hblock, ?_⟩
        have hadd : (g.nextOp + 1).toNat = g.nextOp.toNat + 1 := by
          rw [UInt32.toNat_add]
          exact Nat.mod_eq_of_lt (Nat.succ_lt_succ (UInt32.lt_iff_toNat_lt.mp hop))
        rw [UInt32.lt_iff_toNat_lt, hadd] at h
        exact h
      simp only [hblock, hop, hlast, ↓reduceIte, bind, Except.bind, pure, Except.pure]
      exact ⟨_, rfl⟩
    · simp only [hblock, hop, ↓reduceIte, bind, Except.bind]
      exact ⟨_, rfl⟩
  · simp only [hblock, ↓reduceIte, bind, Except.bind]
    exact ⟨_, rfl⟩

theorem block?_cut (hb : g.block? b = some s) (hnone : g.block? ⟨g.nextBlock⟩ = none) (k : BlockId) :
    (g.cut b s i).block? k =
      (if k = b then some { s with
          instructions := s.instructions.take i
          terminator := ⟨⟨g.nextOp + 1⟩, .branch ⟨g.nextBlock⟩, .empty⟩ }
        else if k = ⟨g.nextBlock⟩ then
          some ⟨⟨g.nextBlock⟩, none, [], s.instructions.drop i, s.terminator⟩
        else g.block? k).map fun c =>
          if s.successors.contains k then c.mapPhis fun q => q.retarget b ⟨g.nextBlock⟩ else c := by
  have hne := ne_next_of_block? hb hnone
  rw [block?, cut, Table.get?_mapWithKey, Table.get?_modify, Table.get?_modify, Table.get?_insert]
  congr 1
  by_cases hkb : k = b
  · subst hkb
    rw [if_neg hne, if_pos rfl, if_neg hne, if_pos rfl]
    exact congrArg (Option.map _) hb
  · by_cases hkt : k = ⟨g.nextBlock⟩
    · subst hkt
      rw [if_pos rfl, if_neg hkb, if_pos rfl, if_neg hkb, if_pos rfl]
      rfl
    · rw [if_neg hkt, if_neg hkb, if_neg hkt, if_neg hkb, if_neg hkt]
      rfl

theorem keys_cut (hnone : g.block? ⟨g.nextBlock⟩ = none) :
    (g.cut b s i).blocks.keys = g.blocks.keys ++ [⟨g.nextBlock⟩] := by
  have hinsert := Table.entries_insert_of_none hnone (.fresh ⟨g.nextBlock⟩ ⟨g.nextOp⟩)
  rw [cut, Table.keys_mapWithKey, Table.modify, Table.keys_mapWithKey, Table.modify,
    Table.keys_mapWithKey, Table.keys, hinsert, map_append]
  rfl

theorem block?_cut_of_ne (hb : g.block? b = some s) (hnone : g.block? ⟨g.nextBlock⟩ = none)
    (hphi : ∀ k c, g.block? k = some c → ∀ p ∈ c.phis, b ∈ p.kind.incoming.map Prod.fst →
      k ∈ s.successors) {k : BlockId} (hk : k ≠ ⟨g.nextBlock⟩) :
    (g.cut b s i).block? k = (if k = b then some { s with
        instructions := s.instructions.take i
        terminator := ⟨⟨g.nextOp + 1⟩, .branch ⟨g.nextBlock⟩, .empty⟩ }
      else g.block? k).map fun c => c.mapPhis fun q => q.retarget b ⟨g.nextBlock⟩ := by
  have hturn : ∀ c : Block, (∃ d, g.block? k = some d ∧ d.phis = c.phis) →
      (if s.successors.contains k then c.mapPhis fun q => q.retarget b ⟨g.nextBlock⟩ else c) =
        c.mapPhis fun q => q.retarget b ⟨g.nextBlock⟩ := by
    rintro c ⟨d, hd, hphis⟩
    split
    · rfl
    · next hs =>
      suffices h : (c.phis.map fun p => p.map fun q => q.retarget b ⟨g.nextBlock⟩) = c.phis by
        rw [Block.mapPhis, h]
      refine (map_congr_left fun p hp => ?_).trans (List.map_id _)
      have hnot : b ∉ p.kind.incoming.map Prod.fst := fun hx =>
        hs (contains_iff_mem.mpr (hphi k d hd p (hphis ▸ hp) hx))
      rw [Operation.map, Inline.retarget_of_not_mem hnot]
      rfl
  rw [block?_cut hb hnone, if_neg hk]
  refine Option.map_congr fun c hc => hturn c ?_
  split at hc
  · next hkb =>
    cases hc
    exact ⟨s, hkb ▸ hb, rfl⟩
  · exact ⟨c, hc, rfl⟩

/-- The graph `g'` is in order, and is `g` with the block `b`, which was `s`, cut before its instruction
at `i`. All that followed is in the block `tail`. -/
structure Severs (g g' : Graph) (b tail : BlockId) (s : Block) (i : Nat) : Prop where
  order : g'.fault? = none
  keys : g'.blocks.keys = g.blocks.keys ++ [tail]
  first : ∃ c, g'.block? b = some c ∧ c.instructions = s.instructions.take i ∧
    c.terminator.kind = .branch tail ∧ c.id = s.id ∧ c.label = s.label ∧
    c.phis = s.phis.map fun p => p.map fun q => q.retarget b tail
  rest : ∃ c, g'.block? tail = some c ∧ c.instructions = s.instructions.drop i ∧
    c.terminator = s.terminator ∧ c.id = tail ∧ c.phis = []
  others : ∀ k, k ≠ b → k ≠ tail →
    g'.block? k = (g.block? k).map fun c => c.mapPhis fun q => q.retarget b tail

end Graph

namespace Function

variable {f : Function} {b : BlockId} {s : Block} {i : Nat}

theorem severs_cut (hg : f.graph.Counted) (hv : f.graph.fault? = none)
    (hb : f.graph.block? b = some s) :
    f.graph.Severs (f.graph.cut b s i) b ⟨f.graph.nextBlock⟩ s i := by
  have hp := (fault?_graph_eq_none_iff hg.keyed).mp hv
  have hnone := hg.block?_next
  have hne := Graph.ne_next_of_block? hb hnone
  have hphi : ∀ k c, f.graph.block? k = some c → ∀ p ∈ c.phis,
      b ∈ p.kind.incoming.map Prod.fst → k ∈ s.successors := by
    intro k c hc p hpc hx
    have hcode : f.proc.code k = some c.code := code_eq_some.mpr ⟨c, hc, rfl⟩
    obtain ⟨d, hd, hs⟩ := (hp.source hcode p.kind (List.mem_map_of_mem hpc) b).mp hx
    obtain ⟨s', hs', rfl⟩ := code_eq_some.mp hd
    cases hb.symm.trans hs'
    exact hs
  have hold := fun {k} => Graph.block?_cut_of_ne (i := i) (k := k) hb hnone hphi
  have htail : (f.graph.cut b s i).block? ⟨f.graph.nextBlock⟩ =
      some ⟨⟨f.graph.nextBlock⟩, none, [], s.instructions.drop i, s.terminator⟩ := by
    rw [Graph.block?_cut hb hnone, if_neg (Ne.symm hne), if_pos rfl, map_some]
    split <;> rfl
  have hfirst := hold hne
  rw [if_pos rfl] at hfirst
  refine ⟨?_, Graph.keys_cut hnone, ⟨_, hfirst, rfl, rfl, rfl, rfl, rfl⟩, ⟨_, htail, rfl, rfl, rfl, rfl⟩,
    fun k hkb hkt => by rw [hold hkt, if_neg hkb]⟩
  have hkeyed : (f.graph.cut b s i).Keyed := by
    intro k c hc
    by_cases hkt : k = ⟨f.graph.nextBlock⟩
    · subst hkt
      rw [htail] at hc
      cases hc
      rfl
    · rw [hold hkt] at hc
      obtain ⟨d, hd, rfl⟩ := map_eq_some_iff.mp hc
      split at hd
      · next hkb =>
        cases hd
        exact (hg.keyed b s hb).trans hkb.symm
      · exact hg.keyed k d hd
  refine (fault?_graph_eq_none_iff (f := { f with graph := f.graph.cut b s i }) hkeyed).mpr ?_
  refine hp.cut (n := i) (code_eq_some.mpr ⟨s, hb, rfl⟩) (map_eq_none_iff.mpr hnone) rfl fun k => ?_
  rw [code_eq]
  by_cases hkt : k = ⟨f.graph.nextBlock⟩
  · subst hkt
    rw [htail, if_neg (Ne.symm hne), if_pos rfl]
    simp only [Block.code, map_some, map_drop, map_nil]
  · rw [hold hkt, if_neg hkt]
    by_cases hkb : k = b
    · subst hkb
      rw [if_pos rfl, if_pos rfl, map_some, map_some, Inline.code_mapPhis]
      simp only [Block.code, Code.retarget, map_take]
    · rw [if_neg hkb, if_neg hkb, Option.map_map, code_eq, Option.map_map]
      exact Option.map_congr fun c _ => Inline.code_mapPhis c _ _

theorem keys_removeBlocks (l : List BlockId) (f : Function) :
    (l.foldl removeBlock f).graph.blocks.keys =
      f.graph.blocks.keys.filter fun k => !l.contains k := by
  induction l generalizing f with
  | nil => simp
  | cons d l ih =>
    have hone : (f.removeBlock d).graph.blocks.keys = f.graph.blocks.keys.filter (· != d) := by
      simp only [removeBlock, Graph.removeBlock]
      cases hd : f.graph.block? d with
      | none =>
        have hnot : d ∉ f.graph.blocks.keys := by
          rw [Table.mem_keys_iff]
          rintro ⟨b, hb⟩
          cases hd.symm.trans hb
        refine (filter_eq_self.mpr fun k hk => ?_).symm
        exact bne_iff_ne.mpr fun he => hnot (he ▸ hk)
      | some b => exact (Table.keys_mapWithKey _ _).trans (Table.keys_filter _ _)
    rw [foldl_cons, ih, hone, List.filter_filter]
    refine filter_congr fun k _ => ?_
    rw [contains_cons, Bool.not_or, Bool.and_comm]
    rfl

theorem keyed_removeBlocks (l : List BlockId) (hk : f.graph.Keyed) :
    (l.foldl removeBlock f).graph.Keyed := by
  induction l generalizing f with
  | nil => exact hk
  | cons d l ih =>
    refine ih fun k c hc => ?_
    simp only [removeBlock, Graph.removeBlock] at hc
    split at hc
    · exact hk k c hc
    · simp only [Graph.modifyBlocks, Graph.block?, Table.get?_mapWithKey, Table.get?_erase] at hc
      obtain ⟨b, hb, rfl⟩ := map_eq_some_iff.mp hc
      have hid : b.id = k := by
        split at hb
        · cases hb
        · exact hk k b hb
      split
      · exact hid
      · exact hid

theorem keys_removeDeadBlocks (f : Function) :
    f.removeDeadBlocks.graph.blocks.keys =
      f.graph.blocks.keys.filter fun k => f.graph.reachable.contains k := by
  rw [removeDeadBlocks, keys_removeBlocks]
  refine filter_congr fun k hk => ?_
  simp [deadBlocks, hk]

/-- The graph of `f'` is in order, and holds those blocks of `f` that can be reached. -/
structure KeepsReachable (f f' : Function) : Prop where
  order : f'.graph.fault? = none
  keys : f'.graph.blocks.keys.Sublist f.graph.blocks.keys
  exact : ∀ k, k ∈ f'.graph.blocks.keys ↔ ∃ l, f.graph.Walk k l
  kept : ∀ k c, f'.graph.block? k = some c → ∃ b, f.graph.block? k = some b ∧ b.Kept c

theorem keepsReachable_removeDeadBlocks (hk : f.graph.Keyed) (hv : f.graph.fault? = none) :
    f.KeepsReachable f.removeDeadBlocks := by
  have hp := (fault?_graph_eq_none_iff hk).mp hv
  have hprunes : f.proc.Prunes (fun _ => none) f.removeDeadBlocks.proc :=
    Branches.prunes_removeBlocks f.deadBlocks (.refl hp)
  have hconnected : f.removeDeadBlocks.proc.Connected :=
    hprunes.connected (fun h => by cases h) hp (Branches.entry_removeDeadBlocks hp.entry)
      (Branches.target_removeDeadBlocks hp.target)
  have hkeyed : f.removeDeadBlocks.graph.Keyed := keyed_removeBlocks f.deadBlocks hk
  refine ⟨(fault?_graph_eq_none_iff hkeyed).mpr hconnected, ?_, fun k => ?_, fun k c hc => ?_⟩
  · rw [keys_removeDeadBlocks]
    exact filter_sublist
  · have hsome : k ∈ f.removeDeadBlocks.graph.blocks.keys ↔
        k ∈ f.graph.reachable ∧ (f.proc.code k).isSome := by
      rw [keys_removeDeadBlocks, mem_filter, contains_iff_mem, isSome_code, Table.contains_iff,
        Table.mem_keys_iff, and_comm]
    rw [hsome]
    constructor
    · rintro ⟨hreach, hcode⟩
      obtain ⟨c, hc⟩ := Branches.exists_code_removeDeadBlocks hreach hcode
      obtain ⟨l, w⟩ := Branches.exists_walk_removeDeadBlocks hp.entry hp.target hc
      exact ⟨l, walk_iff.mp (hprunes.walk (fun h => by cases h) w)⟩
    · rintro ⟨l, w⟩
      exact ⟨Branches.mem_reachable_of_walk (walk_iff.mpr w), (walk_iff.mpr w).isSome⟩
  · exact (of_block?_removeDeadBlocks hc).2

/-- Cutting a block and removing what cannot be reached leave a graph in order. A block is cut unless
there are no more numbers for what is new. -/
theorem surgery_in_order (f : Function) (hg : f.graph.Counted) (hv : f.graph.fault? = none) :
    (∀ b s i, f.graph.block? b = some s → i ≤ s.instructions.length →
      (f.graph.HasRoom → ∃ g tail, f.graph.splitBlock b i = .ok (g, some tail) ∧
        f.graph.Severs g b tail s i) ∧
      (¬ f.graph.HasRoom → ∃ c, f.graph.splitBlock b i = .error (.exhausted c))) ∧
    f.KeepsReachable f.removeDeadBlocks := by
  refine ⟨fun b s i hb hi => ⟨fun hroom => ?_, Graph.splitBlock_of_not_hasRoom hb hi⟩,
    keepsReachable_removeDeadBlocks hg.keyed hv⟩
  exact ⟨_, _, Graph.splitBlock_eq_cut hb hi hg.block?_next hroom, severs_cut hg hv hb⟩

def turnstile : Function :=
  { Function.create ⟨0⟩ "turnstile" [("n", .i64)] .i64 with
    graph := ⟨.ofList [
      (⟨0⟩, ⟨⟨0⟩, none, [], [], .plain ⟨0⟩ (.condBranch (.reg ⟨0⟩) ⟨1⟩ ⟨1⟩)⟩),
      (⟨1⟩, ⟨⟨1⟩, none,
        [.plain ⟨1⟩ ⟨⟨1⟩, [(⟨0⟩, .reg ⟨0⟩), (⟨1⟩, .reg ⟨2⟩), (⟨3⟩, .reg ⟨3⟩)], .i64⟩],
        [.plain ⟨2⟩ (.binary ⟨2⟩ .sub (.reg ⟨1⟩) (.const (.i64 1))), .plain ⟨3⟩ .marker],
        .plain ⟨4⟩ (.switch (.reg ⟨2⟩) [(1, ⟨1⟩), (2, ⟨1⟩)] ⟨2⟩)⟩),
      (⟨3⟩, ⟨⟨3⟩, none, [.plain ⟨5⟩ ⟨⟨3⟩, [(⟨4⟩, .const (.i64 7))], .i64⟩], [],
        .plain ⟨6⟩ (.branch ⟨1⟩)⟩),
      (⟨2⟩, ⟨⟨2⟩, none, [], [], .plain ⟨7⟩ (.ret (some (.reg ⟨2⟩)))⟩),
      (⟨4⟩, ⟨⟨4⟩, none, [], [], .plain ⟨8⟩ (.branch ⟨3⟩)⟩)], ⟨0⟩, 5, 9⟩
    nextReg := 4 }

theorem turnstile_in_order :
    turnstile.graph.Counted ∧ turnstile.graph.fault? = none ∧ turnstile.graph.HasRoom ∧
    (∃ g tail, turnstile.graph.splitBlock ⟨1⟩ 1 = .ok (g, some tail) ∧ g.fault? = none ∧
      g.blocks.keys = [⟨0⟩, ⟨1⟩, ⟨3⟩, ⟨2⟩, ⟨4⟩, tail]) ∧
    turnstile.removeDeadBlocks.graph.fault? = none ∧
    turnstile.removeDeadBlocks.graph.blocks.keys = [⟨0⟩, ⟨1⟩, ⟨2⟩] := by
  have hg : turnstile.graph.Counted := by decide
  have hv : turnstile.graph.fault? = none := by cbv
  have hroom : turnstile.graph.HasRoom := ⟨by decide, by decide⟩
  obtain ⟨hcut, hprune⟩ := surgery_in_order turnstile hg hv
  obtain ⟨g, tail, hs, hsevers⟩ := (hcut ⟨1⟩ _ 1 rfl (by decide)).1 hroom
  exact ⟨hg, hv, hroom, ⟨g, tail, hs, hsevers.order, hsevers.keys⟩, hprune.order, by cbv⟩

def packed : Function :=
  { Function.create ⟨0⟩ "packed" [] .void with
    graph := ⟨.ofList [(⟨0⟩, ⟨⟨0⟩, none, [], [], .plain ⟨0⟩ (.ret none)⟩)], ⟨0⟩, 4294967295, 1⟩ }

/-- A graph in order whose block cannot be cut. -/
theorem splitBlock_packed :
    packed.graph.Counted ∧ packed.graph.fault? = none ∧ (packed.graph.block? ⟨0⟩).isSome ∧
      packed.graph.splitBlock ⟨0⟩ 0 = .error (.exhausted .block) :=
  ⟨by decide, by cbv, rfl, rfl⟩

end Function

end SiteFusion
