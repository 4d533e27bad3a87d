import SiteFusion.Proofs.CandidateCalls
import SiteFusion.Proofs.NumberedRounds
import SiteFusion.Proofs.SoundModules

namespace SiteFusion

open List Option

namespace Module

variable {refs strict : Prop} {m n m₁ m₂ m₃ : Module} {k : FuncId} {f g : Function}

/-- What becomes of a module in the rounds of fusion. -/
structure Evolves (refs strict : Prop) (m n : Module) : Prop where
  sound : n.Sound refs strict True
  exports : m.Exports n
  optimizable : strict → ∀ k g, n.function? k = some g →
    ∃ f, m.function? k = some f ∧ g.isOptimizable = f.isOptimizable

theorem Sound.evolves (h : m.Sound refs strict True) : m.Evolves refs strict m :=
  ⟨h, .refl m, fun _ _ g hg => ⟨g, hg, rfl⟩⟩

theorem Evolves.trans (h : m₁.Evolves refs strict m₂) (h' : m₂.Evolves refs strict m₃) :
    m₁.Evolves refs strict m₃ := by
  refine ⟨h'.sound, h.exports.trans h'.exports, fun hs k g hg => ?_⟩
  obtain ⟨f₂, hf₂, ho⟩ := h'.optimizable hs k g hg
  obtain ⟨f₁, hf₁, ho'⟩ := h.optimizable hs k f₂ hf₂
  exact ⟨f₁, hf₁, ho.trans ho'⟩

/-- A function with the face of one that may be changed may be changed if its entry block is
there. -/
theorem isOptimizable_of_face (hface : g.face = f.face)
    (hg : g.graph.blocks.contains g.graph.entry = true) (ho : f.isOptimizable = true) :
    g.isOptimizable = true := by
  have hkind : g.kind = f.kind := congrArg Header.kind hface
  have hnone : g.attributes.optimizeNone = f.attributes.optimizeNone :=
    congrArg (fun h => h.attributes.optimizeNone) hface
  have hblocks : g.graph.blocks.isEmpty = false := by
    obtain ⟨b, hb⟩ := Table.contains_iff.mp hg
    rw [Table.isEmpty, isEmpty_eq_false_iff_exists_mem]
    exact ⟨_, Table.get?_eq_some_iff.mp hb⟩
  have hd := not_isDeclaration_of_isOptimizable ho
  rw [Function.isDeclaration, Bool.or_eq_false_iff] at hd
  rw [Function.isOptimizable, Bool.and_eq_true_iff] at ho ⊢
  refine ⟨?_, hnone ▸ ho.2⟩
  rw [Function.isDeclaration, hblocks, hkind, hd.1]
  rfl

theorem Sound.evolves_setFunction (h : m.Sound refs strict True) (hf : m.function? k = some f)
    (ho : strict → f.isOptimizable = true) (hface : g.face = f.face) (hc : strict → g.Counted True)
    (hl : g.Lawful (m.law refs strict True)) : m.Evolves refs strict (m.setFunction k g) := by
  refine ⟨h.setFunction hf hface hc hl, exports_setFunction hf hface, fun hs j g' hj => ?_⟩
  rcases cases_of_setFunction hf hj with ⟨rfl, rfl⟩ | ⟨-, hj⟩
  · exact ⟨f, hf, (isOptimizable_of_face hface (hl.entry hs).1 (ho hs)).trans (ho hs).symm⟩
  · exact ⟨g', hj, rfl⟩

/-- Functions are changed in their places, or they are local and go. -/
theorem Sound.evolves_narrow (h : m.Sound refs strict True)
    (hf : ∀ k g, n.function? k = some g →
      ∃ f, m.function? k = some f ∧ Narrows refs strict m n f g)
    (hkeep : ∀ k f, m.function? k = some f → f.attributes.linkage.Exported →
      ∃ g, n.function? k = some g) (hg : n.globals = m.globals) : m.Evolves refs strict n := by
  have hsound : n.Sound refs strict True := h.narrow hf fun k g hk => ⟨g, hg ▸ hk, rfl⟩
  refine ⟨hsound, exports_of_faces (fun k f hk hl => ?_) hg, fun hs k g hk => ?_⟩
  · obtain ⟨g, hn⟩ := hkeep k f hk hl
    obtain ⟨f', hm, hnar⟩ := hf k g hn
    cases hk.symm.trans hm
    exact ⟨g, hn, hnar.face⟩
  · obtain ⟨f, hm, hnar⟩ := hf k g hk
    refine ⟨f, hm, Bool.eq_iff_iff.mpr ⟨hnar.isOptimizable, fun ho => ?_⟩⟩
    refine isOptimizable_of_face hnar.face ?_ ho
    exact ((hnar.lawful _ (h.function hm fun _ => ho)).entry hs).1

end Module

theorem FusionCount.modified_eq_false {c : FusionCount} :
    c.modified = false ↔ c.inlined = 0 ∧ c.functions = 0 ∧ c.registers = 0 ∧ c.phis = 0 ∧
      c.fused = 0 ∧ c.extended = 0 ∧ c.merged = 0 := by
  rw [modified, decide_eq_false_iff_not]
  omega

namespace Rounds

variable {refs strict : Prop} {m : Module} {l : List FuncId} {s t : Rounds}
  {e : Option FusionFault} {k : FuncId} {f g : Function} {n : Module} {op : OpId}

theorem narrows_removeDeadBlocks (hlaw : ∀ free, n.law refs strict free = m.law refs strict free)
    (f : Function) : Module.Narrows refs strict m n f f.removeDeadBlocks := by
  obtain ⟨hhead, -, -⟩ := Function.removeBlocks_frame f.deadBlocks f
  refine ⟨Function.face_eq_of_header hhead, Function.isDeclaration_of_removeDeadBlocks, fun hc => ?_,
    fun free hl => ?_⟩
  · exact (Function.counted_iff.mp hc).removeDeadBlocks.counted
  · rw [hlaw]
    exact hl.removeDeadBlocks.1

theorem removeDead_evolves (h : m.Sound refs strict True) (ks : List FuncId) :
    m.Evolves refs strict (removeDead m ks) := by
  unfold removeDead
  induction ks generalizing m with
  | nil => exact h.evolves
  | cons k ks ih =>
    have hget : ∀ j, (m.modifyFunction k Function.removeDeadBlocks).function? j =
        if j = k then (m.function? j).map Function.removeDeadBlocks else m.function? j :=
      fun j => Table.get?_modify m.functions k j _
    have hlaw : ∀ free, (m.modifyFunction k Function.removeDeadBlocks).law refs strict free =
        m.law refs strict free := by
      intro free
      have hc : ∀ c, (m.modifyFunction k Function.removeDeadBlocks).functions.contains c =
          m.functions.contains c := by
        intro c
        have hf := hget c
        unfold Module.function? at hf
        rw [Table.contains, Table.contains, hf]
        split
        · exact isSome_map ..
        · rfl
      simp only [Module.law, hc]
      rfl
    have hstep : m.Evolves refs strict (m.modifyFunction k Function.removeDeadBlocks) := by
      refine h.evolves_narrow (fun j g hj => ?_) (fun j f hj _ => ?_) rfl
      · rw [hget] at hj
        split at hj
        · obtain ⟨f, hf, rfl⟩ := map_eq_some_iff.mp hj
          exact ⟨f, hf, narrows_removeDeadBlocks hlaw f⟩
        · exact ⟨g, hj, rfl, fun h => h, fun h => h, fun free hl => (hlaw free).symm ▸ hl⟩
      · rw [hget, hj]
        split
        · exact ⟨_, rfl⟩
        · exact ⟨_, rfl⟩
    exact hstep.trans (ih hstep.sound)

theorem dropRefs_evolves (h : m.Sound refs strict True) (callees : List FuncId) :
    m.Evolves refs strict { m with functions := m.functions.map (dropRefs callees) } := by
  refine h.evolves_narrow (fun k g hk => ?_) (fun k f hk _ => ?_) rfl
  · rw [Module.function?, Table.get?_map] at hk
    obtain ⟨f, hf, rfl⟩ := map_eq_some_iff.mp hk
    refine ⟨f, hf, ?_, fun hd => ?_, fun hc => ?_, fun free hl => ?_⟩
    · unfold dropRefs
      split
      · rfl
      · rfl
    · unfold dropRefs at hd
      split at hd
      · exact (f.isDeclaration_mapBlocks _).symm.trans hd
      · exact hd
    · exact (dropRefs_spare callees (Function.counted_iff.mp hc)).counted
    · have hlaw : Module.law { m with functions := m.functions.map (dropRefs callees) } refs strict
          free = m.law refs strict free := by
        simp only [Module.law, Table.contains_map]
      rw [hlaw]
      unfold dropRefs
      split
      · exact (hl.mapBlocks (c := fun _ b => { b with instructions := _ }) fun _ _ _ hb =>
          hb.setInstructions fun o ho => hb.instructions o (mem_of_mem_filter ho)).lawful
      · exact hl
  · exact ⟨dropRefs callees f, by rw [Module.function?, Table.get?_map]; exact congrArg _ hk⟩

theorem function?_removeFunctions (m : Module) (dead : List FuncId) (k : FuncId) :
    (dead.foldl Module.removeFunction m).function? k =
      if k ∈ dead then none else m.function? k := by
  induction dead generalizing m with
  | nil => simp
  | cons d dead ih =>
    rw [foldl_cons, ih, Module.function?, Module.removeFunction, Table.get?_erase]
    by_cases hk : k = d
    · simp [hk]
    · simp [hk, Module.function?]

theorem globals_removeFunctions (m : Module) (dead : List FuncId) :
    (dead.foldl Module.removeFunction m).globals = m.globals := by
  induction dead generalizing m with
  | nil => rfl
  | cons d dead ih => exact ih (m.removeFunction d)

theorem not_mem_unused (h : m.Sound refs strict True) {callees : List FuncId} {c : FuncId}
    {o : Operation Instruction} (hf : m.function? k = some f) (ho : o ∈ f.instructions)
    (hc : o.kind.function? = some c) (hk : k ∉ unused m callees) : c ∉ unused m callees := by
  intro hdead
  have hne : k ≠ c := fun he => hk (he ▸ hdead)
  obtain ⟨-, htest⟩ := mem_filter.mp hdead
  split at htest
  · cases htest
  · have hzero := of_decide_eq_true (Bool.and_eq_true_iff.mp htest).2
    rw [Module.functionUseCount, length_eq_zero_iff, filter_eq_nil_iff] at hzero
    refine hzero c (mem_flatMap.mpr ⟨f, ?_, mem_filterMap.mpr ⟨o, ho, hc⟩⟩)
      (decide_eq_true rfl)
    refine mem_filter.mpr ⟨Table.mem_values_iff.mpr ⟨k, hf⟩, decide_eq_true ?_⟩
    rw [h.functionKey k f hf]
    exact hne

theorem removeUnused_evolves (h : m.Sound refs strict True) (callees : List FuncId)
    (fuel n : Nat) : m.Evolves refs strict (removeUnused callees fuel m n).1 := by
  induction fuel generalizing m n with
  | zero => exact h.evolves
  | succ fuel ih =>
    unfold removeUnused
    split
    · exact h.evolves
    · have hstep : m.Evolves refs strict
          ((unused m callees).foldl Module.removeFunction m) := by
        refine h.evolves_narrow (fun k f hk => ?_) (fun k f hf hl => ?_)
          (globals_removeFunctions m _)
        · rw [function?_removeFunctions] at hk
          split at hk
          · cases hk
          · next hlive =>
            refine ⟨f, hk, rfl, fun h => h, fun h => h, fun free hlaw =>
              hlaw.refer fun o ho => ?_⟩
            obtain ⟨hfun, hglob⟩ := hlaw.refers ho
            refine ⟨fun c hc hrefs => ?_, fun g hg hrefs => ?_⟩
            · obtain ⟨d, hd⟩ := Table.contains_iff.mp (hfun c hc hrefs)
              refine Table.contains_iff.mpr ⟨d, (function?_removeFunctions m _ c).trans ?_⟩
              rw [if_neg (not_mem_unused h hk ho hc hlive)]
              exact hd
            · rw [globals_removeFunctions]
              exact hglob g hg hrefs
        · refine ⟨f, ?_⟩
          rw [function?_removeFunctions, if_neg, hf]
          intro hdead
          obtain ⟨-, htest⟩ := mem_filter.mp hdead
          rw [hf] at htest
          have hlocal := (Bool.and_eq_true_iff.mp htest).1
          rw [Linkage.exported_iff, hlocal] at hl
          cases hl
      exact hstep.trans (ih hstep.sound _)

theorem finish_evolves (h : s.module.Sound refs strict True) :
    s.module.Evolves refs strict s.finish.module := by
  have h₁ := removeDead_evolves h s.callers
  have h₂ := h₁.trans (dropRefs_evolves h₁.sound s.callees)
  exact h₂.trans (removeUnused_evolves h₂.sound s.callees (s.callees.length + 1) 0)

theorem finish_eq_self (hcallers : s.callers = []) (hcallees : s.callees = []) :
    s.finish.module = s.module := by
  have hdrop : s.module.functions.map (dropRefs []) = s.module.functions := by
    refine Table.map_eq_self fun k f _ => ?_
    unfold dropRefs
    split
    · refine f.filterInstructions_eq_self fun o _ => ?_
      split <;> rfl
    · rfl
  unfold finish removeCallees
  rw [hcallers, hcallees]
  dsimp only [removeDead, foldl_nil]
  rw [hdrop]
  rfl

/-- How far a run has come. In a strict module there is no fault, and as long as nothing is counted
nothing has changed. -/
structure Safe (refs strict : Prop) (m : Module) (l : List FuncId) (s : Rounds)
    (e : Option FusionFault) : Prop where
  evolves : m.Evolves refs strict s.module
  fault : strict → e = none
  idle : strict → s.count.modified = false →
    s.module = m ∧ s.callees = [] ∧ s.callers = [] ∧ l = []

/-- Functions that may be changed, if that matters. -/
def Works (strict : Prop) (m : Module) (k : FuncId) : Prop :=
  strict → ∀ f, m.function? k = some f → f.isOptimizable = true

theorem Safe.isOptimizable (h : Safe refs strict m l s e) (hk : Works strict m k)
    (hf : s.module.function? k = some f) (hs : strict) : f.isOptimizable = true := by
  obtain ⟨f₀, hf₀, ho⟩ := h.evolves.optimizable hs k f hf
  exact ho.trans (hk hs f₀ hf₀)

theorem Safe.lawful (h : Safe refs strict m l s e) (hk : Works strict m k)
    (hf : s.module.function? k = some f) : f.Lawful (s.module.law refs strict True) :=
  h.evolves.sound.function hf (h.isOptimizable hk hf)

theorem Safe.setFunction (h : Safe refs strict m l s none) (hk : Works strict m k)
    (hf : s.module.function? k = some f) (hface : g.face = f.face) (hc : f.Counted True → g.Counted True)
    (hl : g.Lawful (s.module.law refs strict True)) {count : FusionCount}
    (hcount : strict → count.modified = false → s.count.modified = false ∧ g = f) :
    Safe refs strict m l { s with module := s.module.setFunction k g, count := count } none := by
  have hsound := h.evolves.sound
  refine ⟨h.evolves.trans (hsound.evolves_setFunction hf (h.isOptimizable hk hf) hface
    (fun hs => hc (hsound.counted hs k f hf)) hl), fun _ => rfl, fun hs hmod => ?_⟩
  obtain ⟨hmod', rfl⟩ := hcount hs hmod
  obtain ⟨hm, hrest⟩ := h.idle hs hmod'
  exact ⟨(Module.setFunction_self hf).trans hm, hrest⟩

theorem Safe.spill (h : Safe refs strict m l s none) (hk : Works strict m k)
    (hs : s.spill k = .ok (t, e)) : Safe refs strict m l t e := by
  rcases spill_cases hs with ⟨rfl, he⟩ | ⟨f, g, n, hf, h₁, rfl, rfl⟩
  · refine ⟨h.evolves, fun hstrict => ?_, h.idle⟩
    rcases he with he | ⟨f, x, hf, h₁⟩
    · exact he
    · unfold Spill.demote at h₁
      rw [Spill.fault?_eq_none_of_lawful (h.lawful hk hf) hstrict trivial] at h₁
      obtain ⟨f₁, -, h₁⟩ := bind_eq_ok.mp h₁
      obtain ⟨⟨f₂, n⟩, -, h₁⟩ := bind_eq_ok.mp h₁
      cases h₁
  · have hleads := Spill.demote_stays (h.lawful hk hf) h₁
    refine h.setFunction hk hf (Function.face_eq_of_header hleads.header)
      (fun hc => (Spill.demote_spare (Function.counted_iff.mp hc) h₁).counted) hleads.lawful
      fun _ hmod => ?_
    rw [FusionCount.modified_eq_false] at hmod ⊢
    dsimp only at hmod
    exact ⟨by omega, Spill.demote_eq_self h₁ (by omega) (by omega)⟩

theorem Safe.extend (h : Safe refs strict m l s none) (hk : Works strict m k) {site : Site}
    {joined : Bool} (hcaller : site.caller = k)
    (hhead : strict → ∃ f, s.module.function? k = some f ∧ f.There site.head)
    (hm : site.extend s.module op = .ok (n, joined)) :
    (strict → ∃ f, n.function? k = some f ∧ f.There site.head) ∧
      Safe refs strict m l { s with
        module := n
        count := { s.count with extended := s.count.extended + joined.toNat } } none := by
  rcases Site.extend_cases hm with ⟨rfl, rfl⟩ |
    ⟨caseSlot, f, o, dest, callee, args, result, g, -, hf, ho, hkind, hg, rfl⟩
  · exact ⟨hhead, h⟩
  · rw [hcaller] at hf ⊢
    have hthere : strict → f.There site.head := fun hs => by
      obtain ⟨f', hf', hthere⟩ := hhead hs
      cases hf.symm.trans hf'
      exact hthere
    have hleads := Site.join_leads (h.lawful hk hf) hthere hg
    have hspare : f.Counted True → g.Counted True ∧ joined = true := fun hc => by
      obtain ⟨hmem, hid⟩ := Site.instruction?_eq_some hc ho
      rw [← hid] at hg
      exact ⟨(Site.join_spare (Function.counted_iff.mp hc) hmem (by rw [hkind]; rfl) hg).counted,
        Site.eq_true_of_join hc hmem hg⟩
    refine ⟨fun hs => ⟨g, Module.function?_setFunction_self hf, hleads.isThere (hthere hs)⟩, ?_⟩
    refine h.setFunction hk hf (Function.face_eq_of_header hleads.header)
      (fun hc => (hspare hc).1) hleads.lawful fun hs hmod => ?_
    rw [FusionCount.modified_eq_false, (hspare (h.evolves.sound.counted hs k f hf)).2] at hmod
    dsimp only [Bool.toNat_true] at hmod
    omega

theorem Safe.build (h : Safe refs strict m l s none) (hk : Works strict m k) {callee : FuncId}
    {calls : List OpId} {site : Option Site}
    (hm : Site.build s.module k callee calls = .ok (n, site)) :
    Safe refs strict m l { s with
      module := n
      count := { s.count with fused := s.count.fused + site.isSome.toNat } } none := by
  rcases Site.build_cases hm with ⟨rfl, rfl⟩ | ⟨f, target, fused, g, hf, ht, hcalls, hg, rfl⟩
  · exact h
  · have hleads := Site.fuseCalls_leads (h.lawful hk hf)
      (fun _ => Table.contains_iff.mpr ⟨target, ht⟩) (fun _ => trivial) hg
    have hspare : f.Counted True → g.Counted True ∧ site.isSome = true := fun hc => by
      obtain ⟨hops, hnodup, hcalls⟩ := Site.collectCalls_eq_some hcalls
      obtain ⟨hs, hsome, -⟩ := Site.fuseCalls_spare (Function.counted_iff.mp hc) False.elim
        (hops ▸ hnodup) (fun c hmem => by
          obtain ⟨o, ho, hkind, -⟩ := hcalls c hmem
          obtain ⟨ho, hid⟩ := Site.instruction?_eq_some hc ho
          exact ⟨o, ho, hid, by rw [hkind]; rfl⟩) hg
      exact ⟨hs.counted, hsome trivial⟩
    refine h.setFunction hk hf (Function.face_eq_of_header hleads.header)
      (fun hc => (hspare hc).1) hleads.lawful fun hs hmod => ?_
    rw [FusionCount.modified_eq_false, (hspare (h.evolves.sound.counted hs k f hf)).2] at hmod
    dsimp only [Bool.toNat_true] at hmod
    omega

theorem Safe.merge (h : Safe refs strict m l s none) (hk : Works strict m k) {keep other : Site}
    {done : Bool} (hf : s.module.function? k = some f) (hkeep : keep ∈ Site.findAll f)
    (hg : keep.merge f other = .ok (g, done)) :
    Safe refs strict m l ({ s with module := s.module.setFunction k g }.addMerged done.toNat)
      none := by
  have hlaw := h.lawful hk hf
  obtain ⟨hlaw', hhead, hsame⟩ := Site.merge_lawful hlaw (fun hs =>
    Site.there_of_mem_findAll hlaw hs (h.evolves.sound.counted hs k f hf) hkeep) hg
  refine h.setFunction hk hf (Function.face_eq_of_header hhead)
    (fun hc => (Site.merge_spare (Function.counted_iff.mp hc) hg).counted) hlaw' fun _ hmod => ?_
  rw [FusionCount.modified_eq_false] at hmod ⊢
  cases done with
  | true =>
    dsimp only [Bool.toNat_true] at hmod
    omega
  | false => exact ⟨hmod, hsame rfl⟩

theorem Safe.inline (h : Safe refs strict m l s none) (hk : Works strict m k) {l' : List FuncId}
    (hs : s.inlineOne k op l = .ok (t, l')) : Safe refs strict m l' t none := by
  rcases inlineOne_eq_ok hs with ⟨-, rfl, rfl⟩ | ⟨f, callee, call, b, o, g, g', inlined, cs, -, hf,
    hc, hd, -, hb, ho, hkind, hg, hg', rfl, -⟩
  · exact ⟨h.evolves, h.fault, h.idle⟩
  · have hsound := h.evolves.sound
    have hleads := Inline.splice_leads (h.lawful hk hf)
      (hsound.lawful call.callee callee hc fun _ => hd) (fun _ _ _ => trivial) hg
    have hleads' := hleads.trans (restamp_leads hleads.lawful hg')
    refine ⟨h.evolves.trans (hsound.evolves_setFunction hf (h.isOptimizable hk hf) ?_
      (fun hst => ?_) (Inline.adoptCollector_lawful hleads'.lawful callee)), fun _ => rfl,
      fun _ hmod => ?_⟩
    · rw [Inline.face_adoptCollector]
      exact Function.face_eq_of_header hleads'.header
    · have hspare := Inline.splice_spare (Function.counted_iff.mp (hsound.counted hst k f hf))
        (fun hf => hf.elim) hb ho (by rw [hkind]; rfl) hg
      exact Inline.adoptCollector_counted (restamp_spare hspare hg').counted callee
    · rw [FusionCount.modified_eq_false] at hmod
      dsimp only at hmod
      omega

theorem steady_safe (refs strict : Prop) (m : Module) :
    Steady (Works strict m)
      (fun site k n => site.caller = k ∧ (strict → ∃ f, n.function? k = some f ∧ f.There site.head))
      (Safe refs strict m) where
  spill := fun h hk hs => h.spill hk hs
  found := fun {_ s k f _ _} h hk hf hsite => by
    have hmem := Site.mem_findAll_of_find hsite
    refine ⟨(Site.exists_of_mem_findAll hmem).1.trans (h.evolves.sound.functionKey k f hf),
      fun hs => ⟨f, hf, ?_⟩⟩
    exact Site.there_of_mem_findAll (h.lawful hk hf) hs (h.evolves.sound.counted hs k f hf) hmem
  merge := fun h hk hf hall hkeep _ hm => by
    rw [Site.eq_findAll_of_all hall] at hkeep
    exact h.merge hk hf hkeep hm
  stop := fun h => ⟨h.evolves, h.fault, fun hs => nomatch h.fault hs⟩

theorem guarded_safe (refs strict : Prop) (m : Module) :
    Guarded (Works strict m)
      (fun site k n => site.caller = k ∧ (strict → ∃ f, n.function? k = some f ∧ f.There site.head))
      (fun _ _ => True) (Safe refs strict m) where
  steady := fun _ => (steady_safe refs strict m).heedless
  caller := fun {_ _ g} h hg => by
    refine ⟨fun hs f₀ hf₀ => ?_, fun _ _ _ _ => trivial⟩
    obtain ⟨f, hf, hcaller, -⟩ := Candidates.mem_discover.mp hg
    obtain ⟨f₁, hf₁, ho⟩ := h.evolves.optimizable hs g.caller f hf
    cases hf₀.symm.trans hf₁
    rw [← ho]
    exact (Bool.and_eq_true_iff.mp (Bool.and_eq_true_iff.mp hcaller).1).1
  queue := fun _ h => ⟨h.evolves, h.fault, h.idle⟩
  extend := fun h hk hsite hm => by
    obtain ⟨hhead, hsafe⟩ := h.extend hk hsite.1 hsite.2 hm
    exact ⟨⟨hsite.1, hhead⟩, fun _ hy => hy, hsafe⟩
  build := fun h hk _ hm => ⟨fun _ hy => hy, fun _ _ _ _ => trivial, h.build hk hm⟩
  inline := fun h hk _ hs => ⟨fun _ hy => hy, h.inline hk hs⟩
  round := fun {l s} h => by
    refine ⟨h.evolves, h.fault, fun hs hmod => ?_⟩
    obtain ⟨hm, hcallees, hcallers, rfl⟩ := h.idle hs hmod
    exact ⟨hm, hcallees, hcallers, rfl⟩

theorem Safe.finish (h : Safe refs strict m [] s none) : Safe refs strict m [] s.finish none := by
  refine ⟨h.evolves.trans (finish_evolves h.evolves.sound), fun _ => rfl, fun hs hmod => ?_⟩
  have hmod' : s.count.modified = false := by
    rw [FusionCount.modified_eq_false] at hmod ⊢
    have hcount : ∃ n, s.finish.count =
        { s.count with functions := s.count.functions + n } := ⟨_, rfl⟩
    obtain ⟨n, hn⟩ := hcount
    rw [hn] at hmod
    dsimp only at hmod
    omega
  obtain ⟨hm, hcallees, hcallers, -⟩ := h.idle hs hmod'
  exact ⟨(finish_eq_self hcallers hcallees).trans hm, hcallees, hcallers, rfl⟩

theorem run_safe (h : m.Sound refs strict True) {settings : Settings}
    (hs : (start settings m).run = .ok (t, e)) :
    m.Evolves refs strict t.module ∧ (strict → e = none) ∧
      (strict → t.count.modified = false → t.module = m) := by
  have hstart : Safe refs strict m [] (start settings m) none :=
    ⟨h.evolves, fun _ => rfl, fun _ _ => ⟨rfl, rfl, rfl, rfl⟩⟩
  have hend : ∃ l, Safe refs strict m l t e := by
    rcases (guarded_safe refs strict m).run hstart (fun _ hy => nomatch hy) hs with
      ⟨u, rfl, hu, rfl⟩ | ⟨-, ht⟩
    · exact ⟨[], hu.finish⟩
    · exact ht
  obtain ⟨l, ht⟩ := hend
  exact ⟨ht.evolves, ht.fault, fun hst hmod => (ht.idle hst hmod).1⟩

end Rounds

end SiteFusion
