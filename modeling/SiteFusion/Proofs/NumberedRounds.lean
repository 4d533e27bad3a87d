import SiteFusion.Proofs.NumberedInline
import SiteFusion.Proofs.NumberedSites
import SiteFusion.Proofs.PipelineInduction
import SiteFusion.Proofs.RoundInduction

namespace SiteFusion

namespace Rounds

variable {s t : Rounds} {e : Option FusionFault} {copied ops : List OpId} {f g : Function}
  {head : Outline} {key : FuncId} {m : Module} {op : OpId} {regs : List Reg}
  {touched touched' : List FuncId}

theorem spill_numbered (h : s.module.Numbered) (hs : s.spill key = .ok (t, e)) :
    t.module.Numbered := by
  rcases spill_cases hs with ⟨rfl, -⟩ | ⟨f, g, n, hf, h₁, -, rfl⟩
  · exact h
  · obtain ⟨hg, hhead⟩ := Spill.demote_numbered (h.function key f hf) h₁
    exact h.setFunction hf hg (congrArg Header.id hhead)

theorem restamp_spare (h : f.Spare head ops regs) (hf : restamp f copied = .ok g) :
    g.Spare head ops regs := by
  obtain ⟨next, -, hf⟩ := bind_eq_ok.mp hf
  obtain ⟨t, -, hf⟩ := bind_eq_ok.mp hf
  cases hf
  refine h.mapAllBlocks (fun _ => rfl) (fun b o => ?_) fun b r => ?_
  · simp [Block.count_opIds, Block.mapTags, Function.comp_def]
  · simp [Block.count_defs, Block.mapTags, Function.comp_def, List.filterMap_map]

theorem restamp_adoptCollector {callee : Function}
    (hg : restamp (Inline.adoptCollector f callee) copied = .ok g) :
    ∃ f', restamp f copied = .ok f' ∧ g = Inline.adoptCollector f' callee := by
  obtain ⟨next, h₁, hg⟩ := bind_eq_ok.mp hg
  obtain ⟨t, h₂, hg⟩ := bind_eq_ok.mp hg
  cases hg
  have hgraph := Inline.graph_adoptCollector f callee
  refine ⟨{ f with
    graph := f.graph.mapBlocks fun b => b.mapTags fun op tags =>
      if copied.contains op then restampTags t tags else tags }, ?_, ?_⟩
  · rw [ownOrdinals, hgraph] at h₁
    rw [copiedOrdinals, hgraph] at h₂
    exact bind_eq_ok.mpr ⟨next, h₁, bind_eq_ok.mpr ⟨t, h₂, rfl⟩⟩
  · unfold Inline.adoptCollector
    dsimp only
    split
    · rfl
    · rfl

/-- A call is excluded, or the body of its callee stands in its place. -/
theorem inlineOne_eq_ok (hs : s.inlineOne key op touched = .ok (t, touched')) :
    ((∃ x, Inline.inlineCall s.module key op = .ok (.error x)) ∧
      t = { s with
        excluded := addNew s.excluded (key, op)
        count := { s.count with failed := s.count.failed + 1 } } ∧ touched' = touched) ∨
    ∃ f callee call b o g g' inlined cs, (∃ r, Inline.inlineCall s.module key op = .ok (.ok r)) ∧
      s.module.function? key = some f ∧
      s.module.function? call.callee = some callee ∧ callee.isDeclaration = false ∧
      f.graph.locateInstruction op = some (call.block, call.index) ∧
      f.graph.block? call.block = some b ∧ b.instructions[call.index]? = some o ∧
      o.kind = .call call.dest call.callee call.args ∧
      Inline.splice f callee call = .ok (g, some inlined) ∧
      restamp g inlined.cloned = .ok g' ∧
      t = { s with
        module := s.module.setFunction key (Inline.adoptCollector g' callee)
        callees := cs
        count := { s.count with inlined := s.count.inlined + 1 } } ∧
      touched' = addNew touched key := by
  obtain ⟨done, h₁, hs⟩ := bind_eq_ok.mp hs
  cases done with
  | error y =>
    cases hs
    exact .inl ⟨⟨y, h₁⟩, rfl, rfl⟩
  | ok r =>
    obtain ⟨m, inlined⟩ := r
    obtain ⟨f, callee, call, b, o, g, hf, hc, hd, hl, hblock, ho, hk, hg, rfl⟩ :=
      Inline.inlineCall_eq_ok h₁
    dsimp only at hs
    rw [Module.function?_setFunction_self hf] at hs
    obtain ⟨g₁, h₂, hs⟩ := bind_eq_ok.mp hs
    cases hs
    obtain ⟨g', hg', rfl⟩ := restamp_adoptCollector h₂
    rw [Module.setFunction_setFunction]
    exact .inr ⟨f, callee, call, b, o, g, g', inlined, _, ⟨_, h₁⟩, hf, hc, hd, hl, hblock, ho, hk,
      hg, hg', rfl, rfl⟩

theorem inlineOne_numbered {caller : FuncId} (h : s.module.Numbered)
    (hs : s.inlineOne caller op touched = .ok (t, touched')) : t.module.Numbered := by
  rcases inlineOne_eq_ok hs with ⟨-, rfl, -⟩ | ⟨f, callee, call, b, o, g, g', inlined, cs, -, hf, hc,
    -, -, hb, ho, hk, hg, hg', rfl, -⟩
  · exact h
  · have hs := restamp_spare (Inline.splice_spare (Function.numbered_iff.mp (h.function _ f hf))
      (fun _ => h.function _ callee hc) hb ho (by rw [hk]; rfl) hg) hg'
    obtain ⟨hn, hid⟩ := Inline.adoptCollector_numbered (hs.numbered trivial trivial).1 callee
    exact h.setFunction hf hn (hid.trans (congrArg Header.id hs.header))

theorem removeDead_numbered (h : m.Numbered) (keys : List FuncId) :
    (removeDead m keys).Numbered := by
  unfold removeDead
  induction keys generalizing m with
  | nil => exact h
  | cons k keys ih =>
    refine ih (h.narrow (fun k' g hg => ?_) (fun k' g hg => ⟨g, hg, rfl⟩) rfl rfl)
    simp only [Module.modifyFunction, Module.function?, Table.get?_modify] at hg
    split at hg
    · obtain ⟨f, hf, rfl⟩ := Option.map_eq_some_iff.mp hg
      have hs := (Function.numbered_iff.mp (h.function k' f hf)).removeDeadBlocks
      exact ⟨f, hf, (hs.numbered trivial trivial).1, congrArg Header.id hs.header⟩
    · exact ⟨g, hg, h.function k' g hg, rfl⟩

theorem dropRefs_spare (callees : List FuncId) (h : f.Spare head ops regs) :
    (dropRefs callees f).Spare head ops regs := by
  unfold dropRefs
  split
  · exact h.filterInstructions fun _ => _
  · exact h

theorem dropRefs_numbered {callees : List FuncId} (h : f.Numbered) :
    (dropRefs callees f).Numbered ∧ (dropRefs callees f).id = f.id := by
  have hs := dropRefs_spare callees (Function.numbered_iff.mp h)
  exact ⟨(hs.numbered trivial trivial).1, congrArg Header.id hs.header⟩

theorem removeFunctions_numbered (h : m.Numbered) (dead : List FuncId) :
    (dead.foldl Module.removeFunction m).Numbered := by
  induction dead generalizing m with
  | nil => exact h
  | cons k dead ih =>
    refine ih (h.narrow (fun k' g hg => ?_) (fun k' g hg => ⟨g, hg, rfl⟩) rfl rfl)
    simp only [Module.removeFunction, Module.function?, Table.get?_erase] at hg
    split at hg
    · cases hg
    · exact ⟨g, hg, h.function k' g hg, rfl⟩

theorem removeUnused_numbered (h : m.Numbered) (callees : List FuncId) (fuel n : Nat) :
    (removeUnused callees fuel m n).1.Numbered := by
  induction fuel generalizing m n with
  | zero => exact h
  | succ fuel ih =>
    unfold removeUnused
    split
    · exact h
    · exact ih (removeFunctions_numbered h _) _

theorem removeCallees_numbered (h : s.module.Numbered) : s.removeCallees.module.Numbered :=
  removeUnused_numbered (h.mapFunctions (c := dropRefs s.callees) fun _ hf => dropRefs_numbered hf)
    s.callees (s.callees.length + 1) 0

theorem steady_numbered :
    Steady (fun _ => True) (fun _ _ _ => True) fun _ s _ => s.module.Numbered where
  spill := fun h _ hs => spill_numbered h hs
  found := fun _ _ _ _ => trivial
  merge := fun {_ _ k f _ _ _ _ _} h _ hf _ _ _ hm => by
    obtain ⟨hg, hhead⟩ := Site.merge_numbered (h.function k f hf) hm
    exact h.setFunction hf hg (congrArg Header.id hhead)
  stop := fun h => h

theorem guarded_numbered : Guarded (fun _ => True) (fun _ _ _ => True) (fun _ _ => True)
    fun _ s _ => s.module.Numbered where
  steady := fun _ => steady_numbered.heedless
  caller := fun _ _ => ⟨trivial, fun _ _ _ _ => trivial⟩
  queue := fun _ h => h
  extend := fun h _ _ hm => ⟨trivial, fun _ hy => hy, Site.extend_numbered h hm⟩
  build := fun h _ _ hm => ⟨fun _ hy => hy, fun _ _ _ _ => trivial, Site.build_numbered h hm⟩
  inline := fun h _ _ hs => ⟨fun _ hy => hy, inlineOne_numbered h hs⟩
  round := fun h => h

theorem run_numbered (h : s.module.Numbered) (hs : s.run = .ok (t, e)) : t.module.Numbered := by
  rcases guarded_numbered.run h (fun _ _ => ⟨trivial, trivial⟩) hs with ⟨u, -, hu, rfl⟩ | ⟨-, -, ht⟩
  · exact removeCallees_numbered (s := { u with module := removeDead u.module u.callers })
      (removeDead_numbered hu u.callers)
  · exact ht

end Rounds

theorem FunctionPass.transform_numbered (p : FunctionPass) {f g : Function} {r : Report}
    (h : f.Numbered) (hf : p.transform f = .ok (g, r)) : g.Numbered ∧ g.header = f.header :=
  (p.transform_spare (Function.numbered_iff.mp h) hf).numbered trivial trivial

theorem passes_numbered : PassRelation (fun f _ g => f.Numbered → g.Numbered ∧ g.header = f.header)
    (fun m _ n => m.Numbered → n.Numbered) where
  functions :=
    { refl := fun _ h => ⟨h, rfl⟩
      trans := fun h₁ h₂ h => by
        obtain ⟨hb, hhead⟩ := h₁ h
        obtain ⟨hc, hhead'⟩ := h₂ hb
        exact ⟨hc, hhead'.trans hhead⟩ }
  modules :=
    { refl := fun _ h => h
      trans := fun h₁ h₂ h => h₂ (h₁ h) }
  lift := fun {_ k f _ _} hf _ hg h => by
    obtain ⟨hn, hhead⟩ := hg (h.function k f hf)
    exact h.setFunction hf hn (congrArg Header.id hhead)
  functionPass := fun p _ _ _ hf h => p.transform_numbered h hf
  mergeConstants := fun _ _ _ hm h => Duplicates.mergeConstants_numbered h hm
  simplifyGlobals := fun _ _ _ hm h => Globals.simplify_numbered h hm
  pruneGlobals := fun _ _ _ hm h => Globals.prune_numbered h hm
  mergeFunctions := fun _ _ _ hm h => Duplicates.mergeFunctions_numbered h hm

namespace Fusion

variable {settings : Settings}

theorem standard_numbered : Respects standard fun m _ n => m.Numbered → n.Numbered := by
  refine passes_numbered.fusion (fun m n r hm => ?_) (fun m b m₁ s e _ h hs => ?_)
    fun _ _ _ _ h => h
  · cases hm
    exact id
  · exact ⟨fun _ hm => Rounds.run_numbered (s := Rounds.start _ m₁) (h hm) hs,
      fun _ hm => Rounds.run_numbered (s := Rounds.start _ m₁) (h hm) hs⟩

theorem run_numbered {m n : Module} {r : Except FusionFault Report} (h : m.Numbered)
    (hm : run settings m = .ok (n, r)) : n.Numbered := by
  rcases runWith_cases hm with ⟨rfl, -⟩ | ⟨prepare, m₁, r₁, s, e, -, h₁, h₂, hend⟩
  · exact h
  · have hs : s.module.Numbered := Rounds.run_numbered (s := Rounds.start settings m₁)
      (passes_numbered.pipeline standard_numbered prepare m m₁ r₁ h₁ h) h₂
    rcases hend with ⟨-, -, rfl, -⟩ | ⟨-, r₂, h₃, -⟩
    · exact hs
    · exact passes_numbered.cleanUp standard_numbered s.module n r₂ h₃ hs

end Fusion

end SiteFusion
