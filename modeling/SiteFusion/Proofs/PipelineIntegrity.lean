import SiteFusion.Proofs.SoundRounds

namespace SiteFusion

open List

structure Function.Improves (f : Function) (modified : Bool) (g : Function) : Prop where
  counted : f.Counted True → g.Counted True
  lawful : ∀ l, f.Lawful l → g.Lawful l ∧ g.header = f.header
  honest : modified = false → g = f

def Module.Improves (m : Module) (modified : Bool) (n : Module) : Prop :=
  ∀ {refs strict free : Prop}, m.Sound refs strict free →
    n.Sound refs strict free ∧ m.Exports n ∧ (strict → modified = false → n = m)

variable {f : Function} {m : Module}

theorem Function.Improves.header_eq {g : Function} {b : Bool} (h : f.Improves b g) :
    g.header = f.header :=
  (h.lawful ⟨fun _ => True, fun _ => True, fun _ _ => True, False, False⟩ (f.lawful_of_allows
    (fun hs => hs) fun _ _ => ⟨⟨fun _ _ => trivial, fun _ _ => trivial⟩, fun _ _ => trivial⟩)).2

theorem FunctionPass.transform_improves (p : FunctionPass) :
    Respects p.transform Function.Improves := fun _ _ _ hf =>
  ⟨fun hc => (p.transform_spare (Function.counted_iff.mp hc) hf).counted,
    fun _ hl => p.transform_lawful hl hf, fun hr => p.transform_honest hf hr⟩

theorem passes_improve : PassRelation Function.Improves Module.Improves where
  functions :=
    { refl := fun _ => ⟨fun h => h, fun _ h => ⟨h, rfl⟩, fun _ => rfl⟩
      trans := fun h₁ h₂ => by
        refine ⟨fun hc => h₂.counted (h₁.counted hc), fun l hl => ?_, fun hr => ?_⟩
        · obtain ⟨hl₁, hhead⟩ := h₁.lawful l hl
          obtain ⟨hl₂, hhead'⟩ := h₂.lawful l hl₁
          exact ⟨hl₂, hhead'.trans hhead⟩
        · obtain ⟨hp, hq⟩ := Bool.or_eq_false_iff.mp hr
          exact (h₂.honest hq).trans (h₁.honest hp) }
  modules :=
    { refl := fun m _ _ _ h => ⟨h, .refl m, fun _ _ => rfl⟩
      trans := fun h₁ h₂ _ _ _ h => by
        obtain ⟨hs₁, he₁, hr₁⟩ := h₁ h
        obtain ⟨hs₂, he₂, hr₂⟩ := h₂ hs₁
        refine ⟨hs₂, he₁.trans he₂, fun hst hr => ?_⟩
        obtain ⟨hp, hq⟩ := Bool.or_eq_false_iff.mp hr
        exact (hr₂ hst hq).trans (hr₁ hst hp) }
  lift := fun {m k f g b} hf ho hg refs strict free h => by
    have hface := Function.face_eq_of_header hg.header_eq
    refine ⟨h.setFunction hf hface (fun hs => hg.counted (h.counted hs k f hf))
      (hg.lawful _ (h.function hf fun _ => ho)).1, Module.exports_setFunction hf hface,
      fun _ hr => ?_⟩
    rw [hg.honest hr]
    exact Module.setFunction_self hf
  functionPass := FunctionPass.transform_improves
  mergeConstants := fun _ _ _ hm _ _ _ h => by
    obtain ⟨hs, he, hr⟩ := Duplicates.mergeConstants_sound h hm
    exact ⟨hs, he, fun _ => hr⟩
  simplifyGlobals := fun _ _ _ hm _ _ _ h => by
    obtain ⟨hs, he, hr⟩ := Globals.simplify_sound h hm
    exact ⟨hs, he, fun _ => hr⟩
  pruneGlobals := fun _ _ _ hm _ _ _ h => by
    obtain ⟨hs, he, hr⟩ := Globals.prune_sound h hm
    exact ⟨hs, he, fun _ => hr⟩
  mergeFunctions := fun _ _ _ hm _ _ _ h => by
    obtain ⟨hs, he, hr⟩ := Duplicates.mergeFunctions_sound h hm
    exact ⟨hs, he, fun _ => hr⟩

namespace Fusion

variable {refs strict free : Prop} {settings : Settings} {m n : Module}

theorem sound_of_entryFault? (h : m.Sound refs strict free) (he : entryFault? m = none) :
    m.Sound refs strict True := by
  refine ⟨h.functionKey, h.globalKey, h.counted, fun k f hf hd => ?_⟩
  have hlaw := h.lawful k f hf hd
  refine ⟨hlaw.entry, hlaw.trap, fun j b hb => ?_⟩
  have hblock := hlaw.block j b hb
  refine ⟨hblock.phis, hblock.instructions, fun hs t ht => ⟨(hblock.edges hs t ht).1, ?_⟩⟩
  rintro ⟨-, ho⟩ rfl
  have hnone := findSome?_eq_none_iff.mp he f
    (mem_filter.mpr ⟨Table.mem_values_iff.mpr ⟨k, hf⟩, ho hs⟩)
  split at hnone
  · next hpreds =>
    rw [List.isEmpty_iff, Graph.predecessors, map_eq_nil_iff, filter_eq_nil_iff] at hpreds
    exact hpreds b (Table.mem_values_iff.mpr ⟨j, hb⟩) (contains_iff_mem.mpr ht)
  · cases hnone

theorem run_improves {b : Bool} {m₁ : Module} {s : Rounds} {e : Option FusionFault}
    (he : entryFault? m = none) (hm : m.Improves b m₁)
    (hs : (Rounds.start settings m₁).run = .ok (s, e)) :
    (e = none → m.Improves (b || s.count.modified) s.module) ∧
      (e ≠ none → m.Improves false s.module) := by
  have hrun : ∀ {refs strict free : Prop}, m.Sound refs strict free →
      s.module.Sound refs strict free ∧ m.Exports s.module ∧ (strict → e = none) ∧
        (strict → (b || s.count.modified) = false → s.module = m) := by
    intro refs strict free h
    obtain ⟨hs₁, he₁, hr₁⟩ := hm (sound_of_entryFault? h he)
    obtain ⟨hevolves, hfault, hidle⟩ := Rounds.run_safe hs₁ hs
    refine ⟨hevolves.sound.mono fun _ => trivial, he₁.trans hevolves.exports, hfault,
      fun hst hr => ?_⟩
    obtain ⟨hp, hq⟩ := Bool.or_eq_false_iff.mp hr
    exact (hidle hst hq).trans (hr₁ hst hp)
  refine ⟨fun _ _ _ _ h => ?_, fun hne _ _ _ h => ?_⟩
  · obtain ⟨hsound, hexports, -, hr⟩ := hrun h
    exact ⟨hsound, hexports, hr⟩
  · obtain ⟨hsound, hexports, hfault, -⟩ := hrun h
    exact ⟨hsound, hexports, fun hst => absurd (hfault hst) hne⟩

theorem standard_improves : Respects standard Module.Improves := by
  refine passes_improve.fusion (fun m n r hm => ?_) (fun m b m₁ s e he hm hs => run_improves he hm hs)
    fun hv => nomatch hv
  cases hm
  exact passes_improve.modules.refl m

end Fusion

def Function.Unmarked (f : Function) : Prop :=
  ∀ k b, f.graph.block? k = some b → ∀ x ∈ b.listed, x.tags.Foreign

/-- Branches of a body lead to its blocks, and its entry block is one of them. -/
structure Function.Closed (f : Function) : Prop where
  entry : f.graph.blocks.contains f.graph.entry = true
  edges : ∀ k b, f.graph.block? k = some b → ∀ s ∈ b.successors, f.graph.blocks.contains s = true
  trap : f.trap ≠ some f.graph.entry

/-- A module as it may come to fusion: everything is listed under its own number, numbers come from
their counters and tell operations apart, there are no sites, and bodies are closed. -/
structure Module.Tidy (m : Module) : Prop where
  functionKey : ∀ k f, m.function? k = some f → f.id = k
  globalKey : ∀ k g, m.globals.get? k = some g → g.id = k
  counted : ∀ k f, m.function? k = some f → f.Counted True
  unmarked : ∀ k f, m.function? k = some f → f.Unmarked
  body : ∀ k f, m.function? k = some f → f.isDeclaration = false → f.Closed

instance (f : Function) : Decidable f.Unmarked :=
  inferInstanceAs (Decidable (∀ k b, f.graph.blocks.get? k = some b → _))

instance (f : Function) : Decidable f.Closed :=
  decidable_of_iff (f.graph.blocks.contains f.graph.entry = true ∧ f.trap ≠ some f.graph.entry ∧
      ∀ k b, f.graph.blocks.get? k = some b → ∀ s ∈ b.successors, f.graph.blocks.contains s = true)
    ⟨fun ⟨he, ht, hs⟩ => ⟨he, hs, ht⟩, fun h => ⟨h.entry, h.trap, h.edges⟩⟩

instance (m : Module) : Decidable m.Tidy :=
  decidable_of_iff ((∀ k f, m.functions.get? k = some f →
      f.id = k ∧ f.Counted True ∧ f.Unmarked ∧ (f.isDeclaration = false → f.Closed)) ∧
      ∀ k g, m.globals.get? k = some g → g.id = k)
    ⟨fun ⟨h, hg⟩ => ⟨fun k f hf => (h k f hf).1, hg, fun k f hf => (h k f hf).2.1,
      fun k f hf => (h k f hf).2.2.1, fun k f hf => (h k f hf).2.2.2⟩,
    fun h => ⟨fun k f hf => ⟨h.functionKey k f hf, h.counted k f hf, h.unmarked k f hf,
      h.body k f hf⟩, h.globalKey⟩⟩

theorem Function.Closed.lawful {l : Law} (h : f.Closed) (hc : f.Counted True) (hu : f.Unmarked)
    (hr : ∀ o ∈ f.instructions, l.Allows o) (hfree : ¬ l.free) : f.Lawful l := by
  refine ⟨fun _ => ⟨h.entry, ?_⟩, fun _ => h.trap, fun k b hb => ⟨fun p hp _ => ?_, fun o ho => ?_,
    fun _ s hs => ⟨h.edges k b hb s hs, fun hf => absurd hf hfree⟩⟩⟩
  · obtain ⟨b, hb⟩ := Table.contains_iff.mp h.entry
    exact hc.blockBound trivial _ b hb
  · obtain ⟨i, hi, rfl⟩ := mem_iff_getElem.mp hp
    refine (hu k b hb ⟨.phi i, b.phis[i].id, b.phis[i].tags⟩ ?_).get?_eq_none (by decide)
    rw [Block.listed, mem_append, mem_append]
    exact .inl (.inl (mem_mapIdx.mpr ⟨i, hi, rfl⟩))
  · refine Law.stands_of_plain (hr o (mem_instructions.mpr ⟨k, b, hb, ho⟩)) fun _ => ?_
    obtain ⟨i, hi⟩ := mem_iff_getElem?.mp ho
    exact (hu k b hb _ (Block.listed_instruction hi)).get?_eq_none (by decide)

theorem Module.Tidy.sound (h : m.Tidy) : m.Sound False True False := by
  refine ⟨h.functionKey, h.globalKey, fun _ => h.counted, fun k f hf hd => ?_⟩
  refine (h.body k f hf (hd trivial)).lawful (h.counted k f hf) (h.unmarked k f hf)
    (fun o _ => ⟨⟨fun _ _ hr => hr.elim, fun _ _ hr => hr.elim⟩, fun _ _ => trivial⟩) fun hfr => hfr.1

def Module.Complete (m : Module) : Prop :=
  ∀ k f, m.function? k = some f → ∀ o ∈ f.instructions,
    (∀ c ∈ o.kind.function?, m.functions.contains c = true) ∧
      ∀ g ∈ o.kind.global?, m.globals.contains g = true

instance (m : Module) : Decidable m.Complete :=
  inferInstanceAs (Decidable (∀ k f, m.functions.get? k = some f → _))

theorem Module.sound_iff_complete (hf : ∀ k f, m.function? k = some f → f.id = k)
    (hg : ∀ k g, m.globals.get? k = some g → g.id = k) (refs : Prop) :
    m.Sound refs False False ↔ (refs → m.Complete) := by
  constructor
  · intro h hr k f hk o ho
    obtain ⟨hfun, hglob⟩ := (h.lawful k f hk fun hs => hs.elim).refers ho
    exact ⟨fun c hc => hfun c hc hr, fun g hg => hglob g hg hr⟩
  · intro h
    refine ⟨hf, hg, fun hs => hs.elim, fun k f hk _ => f.lawful_of_allows (fun hs => hs) ?_⟩
    exact fun o ho => ⟨⟨fun c hc hr => (h hr k f hk o ho).1 c hc, fun g hg hr =>
      (h hr k f hk o ho).2 g hg⟩, fun _ _ => trivial⟩

theorem Pipeline.runText_improves {text : String} {n : Module} {r : Report}
    (hrun : runText text m = .ok (.ok (n, r))) : m.Improves r.modified n := by
  unfold runText at hrun
  split at hrun
  · cases hrun
  · next p _ =>
    obtain ⟨x, h₁, hrun⟩ := bind_eq_ok.mp hrun
    cases hrun
    exact passes_improve.pipeline Fusion.standard_improves p m n r h₁

/-- Fusion that stops because a pipeline cannot be read, or because values cannot be moved to memory,
has changed nothing. -/
theorem Fusion.unchanged_of_fault {settings : Settings} {m n : Module} {x : FusionFault}
    (h : m.Tidy) (hrun : run settings m = .ok (n, .error x))
    (hx : (∃ e, x = .pipeline e) ∨ ∃ name e, x = .spill name e) : n = m := by
  rcases runWith_cases hrun with ⟨rfl, -⟩ | ⟨prepare, m₁, r₁, s, e, he, h₁, h₂, hend⟩
  · rfl
  · have hm : m.Improves r₁.modified m₁ :=
      passes_improve.pipeline standard_improves prepare m m₁ r₁ h₁
    obtain ⟨hs₁, -, -⟩ := hm (sound_of_entryFault? h.sound he)
    obtain ⟨-, hfault, -⟩ := Rounds.run_safe hs₁ h₂
    rcases hend with ⟨y, rfl, -, -⟩ | ⟨-, r₂, -, ⟨y, hy, hxy⟩ | hxy⟩
    · cases hfault trivial
    · cases hxy
      unfold finalFault? at hy
      split at hy
      · split at hy
        · cases hy
        · cases hy
          rcases hx with ⟨e, he⟩ | ⟨name, e, he⟩
          · cases he
          · cases he
      · cases hy
    · cases hxy

def carousel : Module where
  name := "carousel"
  functions := .ofList [
    (⟨0⟩, { Function.create ⟨0⟩ "turn" [("x", .i64)] .i64 with
      graph := ⟨.ofList [
        (⟨0⟩, ⟨⟨0⟩, none, [], [], .plain ⟨0⟩ (.ret (some (.reg ⟨0⟩)))⟩)], ⟨0⟩, 1, 1⟩ }),
    (⟨1⟩, { Function.create ⟨1⟩ "main" [("n", .i64)] .i64 with
      attributes := ⟨.public_, .auto, false, none⟩
      nextReg := 3
      graph := ⟨.ofList [
        (⟨0⟩, ⟨⟨0⟩, none, [],
          [.plain ⟨0⟩ (.call (some ⟨1⟩) ⟨0⟩ [.reg ⟨0⟩]),
            .plain ⟨1⟩ (.call (some ⟨2⟩) ⟨0⟩ [.reg ⟨1⟩])],
          .plain ⟨2⟩ (.branch ⟨0⟩)⟩)], ⟨0⟩, 1, 3⟩ })]
  globals := .empty
  nextFunction := 2
  nextGlobal := 0

theorem Fusion.unchanged_carousel : carousel.Tidy ∧
    ∃ n e, run .default carousel = .ok (n, .error (.spill "main" e)) ∧ n = carousel := by
  have h : carousel.Tidy := by decide +kernel
  have hrun : ∃ n e, run .default carousel = .ok (n, .error (.spill "main" e)) := ⟨_, _, rfl⟩
  obtain ⟨n, e, hrun⟩ := hrun
  exact ⟨h, n, e, hrun, unchanged_of_fault h hrun (.inr ⟨"main", e, rfl⟩)⟩

/-- A pipeline keeps all that can be got at from outside a module, and if every reference has a
target before it, every reference has one after it. -/
theorem Pipeline.exports_and_references_kept {text : String} {m n : Module} {r : Report}
    (hf : ∀ k f, m.function? k = some f → f.id = k)
    (hg : ∀ k g, m.globals.get? k = some g → g.id = k)
    (hrun : runText text m = .ok (.ok (n, r))) :
    m.Exports n ∧ (m.Complete → n.Complete) := by
  obtain ⟨hs, hexports, -⟩ :=
    runText_improves hrun ((Module.sound_iff_complete hf hg m.Complete).mpr fun h => h)
  exact ⟨hexports, (Module.sound_iff_complete hs.functionKey hs.globalKey m.Complete).mp hs⟩

def workshop : Module where
  name := "workshop"
  functions := .ofList [
    (⟨0⟩, { Function.create ⟨0⟩ "saw" [("x", .i64)] .i64 with
      graph := ⟨.ofList [
        (⟨0⟩, ⟨⟨0⟩, none, [], [], .plain ⟨0⟩ (.ret (some (.reg ⟨0⟩)))⟩)], ⟨0⟩, 1, 1⟩ }),
    (⟨1⟩, { Function.create ⟨1⟩ "file" [("x", .i64)] .i64 with
      graph := ⟨.ofList [
        (⟨0⟩, ⟨⟨0⟩, none, [], [], .plain ⟨0⟩ (.ret (some (.reg ⟨0⟩)))⟩)], ⟨0⟩, 1, 1⟩ }),
    (⟨2⟩, { Function.create ⟨2⟩ "plane" [("x", .i64)] .i64 with
      graph := ⟨.ofList [
        (⟨0⟩, ⟨⟨0⟩, none, [], [], .plain ⟨0⟩ (.ret (some (.reg ⟨0⟩)))⟩)], ⟨0⟩, 1, 1⟩ }),
    (⟨3⟩, { Function.create ⟨3⟩ "main" [("n", .i64)] .i64 with
      attributes := ⟨.public_, .auto, false, none⟩
      nextReg := 3
      graph := ⟨.ofList [
        (⟨0⟩, ⟨⟨0⟩, none, [],
          [.plain ⟨0⟩ (.call (some ⟨1⟩) ⟨0⟩ [.reg ⟨0⟩]),
            .plain ⟨1⟩ (.call (some ⟨2⟩) ⟨1⟩ [.reg ⟨1⟩]),
            .plain ⟨2⟩ (.storeGlobal ⟨0⟩ (.reg ⟨2⟩))],
          .plain ⟨3⟩ (.ret (some (.reg ⟨2⟩)))⟩)], ⟨0⟩, 1, 4⟩ })]
  globals := .ofList [(⟨0⟩, ⟨⟨0⟩, "bench", .i64, none, true, .public_⟩)]
  nextFunction := 4
  nextGlobal := 1

theorem Pipeline.references_kept_workshop :
    ∃ n r, runText "globaldce,mergefunc,function(dce),fuse" workshop = .ok (.ok (n, r)) ∧
      n.functions.keys = [⟨3⟩] ∧ workshop.Exports n ∧ n.Complete := by
  have hf : ∀ k f, workshop.functions.get? k = some f → f.id = k := by decide +kernel
  have hg : ∀ k g, workshop.globals.get? k = some g → g.id = k := by decide +kernel
  have hc : workshop.Complete := by decide +kernel
  have hkeys : (runText "globaldce,mergefunc,function(dce),fuse" workshop).toOption.map
      (fun x => x.toOption.map fun y => y.1.functions.keys) = some (some [⟨3⟩]) := by decide +kernel
  cases hrun : runText "globaldce,mergefunc,function(dce),fuse" workshop with
  | error a =>
    rw [hrun] at hkeys
    cases hkeys
  | ok x =>
    rw [hrun] at hkeys
    cases x with
    | error e => cases hkeys
    | ok y =>
      obtain ⟨hexports, hcomplete⟩ := exports_and_references_kept hf hg hrun
      have hkeys : y.1.functions.keys = [⟨3⟩] := Option.some.inj (Option.some.inj hkeys)
      exact ⟨y.1, y.2, rfl, hkeys, hexports, hcomplete hc⟩

/-- A pipeline that reports no change has made none. -/
theorem Pipeline.unchanged_of_unmodified {text : String} {m n : Module} {r : Report} (h : m.Tidy)
    (hrun : runText text m = .ok (.ok (n, r))) (hr : r.modified = false) : n = m := by
  obtain ⟨-, -, hsame⟩ := runText_improves hrun h.sound
  exact hsame trivial hr

theorem Pipeline.unmodified_carousel : carousel.Tidy ∧
    ∃ n r, runText "fuse,module(constmerge,globaldce),function(dce,simplifycfg)" carousel =
      .ok (.ok (n, r)) ∧ r.modified = false ∧ n = carousel := by
  have h : carousel.Tidy := by decide +kernel
  have hrun : ∃ n r, runText "fuse,module(constmerge,globaldce),function(dce,simplifycfg)" carousel =
      .ok (.ok (n, r)) ∧ r.modified = false := ⟨_, _, rfl, rfl⟩
  obtain ⟨n, r, hrun, hr⟩ := hrun
  exact ⟨h, n, r, hrun, hr, unchanged_of_unmodified h hrun hr⟩

end SiteFusion
