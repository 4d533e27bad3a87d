import SiteFusion.Proofs.CallHistory

namespace SiteFusion

open List Option

namespace Module

variable {K P : FuncId → Prop} {m n m₀ : Module} {k : FuncId} {f g : Function}

/-- The functions are those of another module, and only those among `K` have other bodies. Nothing
else is different. -/
structure Preserves (K : FuncId → Prop) (m n : Module) : Prop where
  rest : n = { m with functions := n.functions }
  there : ∀ k f, m.function? k = some f → ∃ g, n.function? k = some g
  face : ∀ k g, n.function? k = some g → ∃ f, m.function? k = some f ∧ g.face = f.face
  same : ∀ k, ¬ K k → n.function? k = m.function? k

theorem Preserves.refl (K : FuncId → Prop) (m : Module) : m.Preserves K m :=
  ⟨rfl, fun _ f hf => ⟨f, hf⟩, fun _ g hg => ⟨g, hg, rfl⟩, fun _ _ => rfl⟩

theorem Preserves.modifyFunction (h : m₀.Preserves K m) (hk : K k) {φ : Function → Function}
    (hφ : ∀ f, m.function? k = some f → (φ f).face = f.face) :
    m₀.Preserves K (m.modifyFunction k φ) := by
  have hget : ∀ j, (m.modifyFunction k φ).function? j =
      if j = k then (m.function? j).map φ else m.function? j :=
    fun j => Table.get?_modify m.functions k j φ
  refine ⟨?_, fun j f hf => ?_, fun j g hg => ?_, fun j hj => ?_⟩
  · conv_lhs => rw [Module.modifyFunction, h.rest]
    rfl
  · obtain ⟨g, hg⟩ := h.there j f hf
    rw [hget, hg]
    split
    · exact ⟨φ g, rfl⟩
    · exact ⟨g, rfl⟩
  · rw [hget] at hg
    split at hg
    · next he =>
      subst he
      obtain ⟨f, hf, rfl⟩ := map_eq_some_iff.mp hg
      obtain ⟨f₀, hf₀, hface⟩ := h.face j f hf
      exact ⟨f₀, hf₀, (hφ f hf).trans hface⟩
    · exact h.face j g hg
  · rw [hget, if_neg fun he : j = k => hj (he ▸ hk)]
    exact h.same j hj

theorem Preserves.turn (h : m₀.Preserves K m) (ht : m.Turns K P n) : m₀.Preserves K n := by
  rcases ht with rfl | ⟨k, f, g, hk, hf, hadv, rfl⟩
  · exact h
  · refine h.modifyFunction hk fun f' hf' => ?_
    cases hf.symm.trans hf'
    exact hadv.face

def Changeable (settings : Settings) (m : Module) (k : FuncId) : Prop :=
  ∃ f, m.function? k = some f ∧ f.isOptimizable = true ∧
    (f.attributes.inline ≠ .never ∨ settings.ignoreNoInline = true)

def Replaceable (m : Module) (c : FuncId) : Prop :=
  ∃ f, m.function? c = some f ∧ f.isOptimizable = true

variable {settings : Settings}

theorem Preserves.replaceable (h : m.Preserves (m.Changeable settings) n)
    (hg : n.function? k = some g) (ho : g.isOptimizable = true) : m.Replaceable k := by
  by_cases hk : m.Changeable settings k
  · obtain ⟨f, hf, hopt, -⟩ := hk
    exact ⟨f, hf, hopt⟩
  · exact ⟨g, (h.same k hk).symm.trans hg, ho⟩

theorem Preserves.changeable (h : m.Preserves (m.Changeable settings) n)
    (hg : n.function? k = some g) (hc : Candidates.isCaller settings g = true) :
    m.Changeable settings k := by
  simp only [Candidates.isCaller, Bool.and_eq_true, Bool.or_eq_true, decide_eq_true_eq] at hc
  obtain ⟨f, hf, hopt⟩ := h.replaceable hg hc.1.1
  obtain ⟨f', hf', hface⟩ := h.face k g hg
  cases hf.symm.trans hf'
  have hinline : f.attributes.inline = g.attributes.inline :=
    congrArg (fun x : Header => x.attributes.inline) hface.symm
  exact ⟨f, hf, hopt, hinline ▸ hc.2⟩

end Module

namespace Rounds

variable {K P : FuncId → Prop} {settings : Settings} {m n : Module} {l l' : List FuncId}
  {s t : Rounds} {k : FuncId} {e : Option FusionFault} {op : OpId} {y : FuncId × OpId}

theorem mem_foldl_addNew {as : List FuncId} : k ∈ l.foldl addNew as ↔ k ∈ as ∨ k ∈ l := by
  induction l generalizing as with
  | nil => simp
  | cons j l ih =>
    rw [foldl_cons, ih, mem_addNew, mem_cons]
    tauto

/-- Nothing that fusion has to leave alone has been changed, or is going to be. -/
structure Shielded (settings : Settings) (m : Module) (l : List FuncId) (s : Rounds) : Prop where
  counted : s.module.Counted
  agrees : s.settings = settings
  preserves : m.Preserves (m.Changeable settings) s.module
  callees : ∀ c ∈ s.callees, m.Replaceable c
  callers : ∀ k ∈ s.callers, m.Changeable settings k
  touched : ∀ k ∈ l, m.Changeable settings k

theorem Shielded.turn (h : Shielded settings m l s)
    (ht : s.module.Turns (m.Changeable settings) P n) {count : FusionCount} :
    Shielded settings m l { s with module := n, count := count } :=
  ⟨ht.counted h.counted, h.agrees, h.preserves.turn ht, h.callees, h.callers, h.touched⟩

theorem steady_shielded (settings : Settings) (m : Module) (s₀ : Rounds) :
    Steady (m.Changeable settings) (fun site k _ => site.caller = k) fun l s _ =>
      Shielded settings m l s ∧
        ∀ y, Site.Picks m.Replaceable y s₀.module → Site.Picks m.Replaceable y s.module where
  spill := by
    rintro l s k t e ⟨h, hpicks⟩ hk hs
    obtain ⟨ht, n, he⟩ := spill_turns (P := m.Replaceable) h.counted hk hs
    refine ⟨?_, fun y hy => (hpicks y hy).turn h.counted ht⟩
    rw [he]
    exact h.turn ht
  found := by
    rintro l s k f name site ⟨h, -⟩ - hf hsite
    exact (Site.exists_of_mem_findAll (Site.mem_findAll_of_find hsite)).1.trans
      (h.counted.functionKey k f hf)
  merge := by
    rintro l s k f sites keep other g done ⟨h, hpicks⟩ hk hf - - - hg
    have ht := merge_turns (P := m.Replaceable) h.counted hk hf hg
    exact ⟨h.turn ht, fun y hy => (hpicks y hy).turn h.counted ht⟩
  stop := by
    rintro l s n e ⟨h, hpicks⟩
    exact ⟨⟨h.counted, h.agrees, h.preserves, h.callees, h.callers, h.touched⟩, hpicks⟩

theorem Shielded.caller (h : Shielded settings m l s) {g : CallerGroups}
    (hg : g ∈ Candidates.discover s.module s.excluded s.settings) :
    m.Changeable settings g.caller ∧
      ∀ c ∈ g.groups, ∀ op ∈ c.calls, Site.Picks m.Replaceable (g.caller, op) s.module := by
  obtain ⟨f, hf, hcaller, -⟩ := Candidates.mem_discover.mp hg
  refine ⟨h.preserves.changeable hf (h.agrees ▸ hcaller), fun c hc op hop => ?_⟩
  have hcand := Candidates.candidate_of_mem hg
    (mem_flatMap.mpr ⟨c, hc, List.mem_map_of_mem hop⟩ : (c.callee, op) ∈ CallGroup.pairs g.groups)
  obtain ⟨f', hf', -, hcall⟩ := hcand.caller
  obtain ⟨d, hd, heligible⟩ := hcand.callee
  have hcounted := h.counted.function _ f' hf'
  intro f'' hf''
  cases hf'.symm.trans hf''
  refine ⟨hcounted.opBound op (Function.mem_opIds_of_calls hcall), fun c' hc' => ?_⟩
  rw [← hcounted.callee_unique hcall hc']
  simp only [Candidates.isEligible, Bool.and_eq_true] at heligible
  exact h.preserves.replaceable hd heligible.1.1.2

theorem callees_inlineOne (h : s.module.Counted) (hs : s.inlineOne k op l = .ok (t, l')) :
    ∀ c ∈ t.callees, c ∈ s.callees ∨ ∃ f, s.module.function? k = some f ∧ f.Calls op c := by
  have hcs : t.callees = s.callees ∨ t.callees = ((((s.module.function? k).bind fun f =>
      f.graph.instruction? op).bind fun o => o.kind.callee?).map fun c =>
        addNew s.callees c).getD s.callees := by
    obtain ⟨done, -, hs⟩ := bind_eq_ok.mp hs
    cases done with
    | error x =>
      cases hs
      exact .inl rfl
    | ok r =>
      dsimp only at hs
      split at hs
      · cases hs
        exact .inr rfl
      · obtain ⟨f, -, hs⟩ := bind_eq_ok.mp hs
        cases hs
        exact .inr rfl
  intro c hc
  rcases hcs with hcs | hcs
  · exact .inl (hcs ▸ hc)
  · rw [hcs] at hc
    cases hcallee : ((s.module.function? k).bind fun f => f.graph.instruction? op).bind
        fun o => o.kind.callee? with
    | none =>
      rw [hcallee] at hc
      exact .inl hc
    | some d =>
      rw [hcallee] at hc
      rcases mem_addNew.mp hc with hc | rfl
      · exact .inl hc
      · obtain ⟨o, ho, hk⟩ := bind_eq_some_iff.mp hcallee
        obtain ⟨f, hf, ho⟩ := bind_eq_some_iff.mp ho
        exact .inr ⟨f, hf, (h.function k f hf).calls_of_instruction? ho hk⟩

theorem guarded_shielded (settings : Settings) (m : Module) :
    Guarded (m.Changeable settings) (fun site k _ => site.caller = k) (Site.Picks m.Replaceable)
      fun l s _ => Shielded settings m l s where
  steady := steady_shielded settings m
  caller := fun h hg => h.caller hg
  queue := fun q h => ⟨h.counted, h.agrees, h.preserves, h.callees, h.callers, h.touched⟩
  extend := by
    intro l s k site op m' joined h hk hsite hm
    have ht := Site.extend_turns (P := m.Replaceable) h.counted (hsite ▸ hk) hm
    exact ⟨hsite, fun y hy => hy.turn h.counted ht, h.turn ht⟩
  build := by
    intro l s k callee calls m' site h hk hcalls hm
    obtain ⟨ht, hnew⟩ := Site.build_turns (P := m.Replaceable) h.counted hk
      (fun op hop f c hf hc => (hcalls op hop f hf).2 c hc) hm
    exact ⟨fun y hy => hy.turn h.counted ht, fun x op hx hop => (hnew x op hx hop).2, h.turn ht⟩
  round := fun h => ⟨h.counted, h.agrees, h.preserves, h.callees, fun k hk =>
    (mem_foldl_addNew.mp hk).elim (h.callers k) (h.touched k), fun k hk => by cases hk⟩
  inline := by
    intro l s k op t l' h hk hpick hs
    have ht := (inlineOne_turns (P := m.Replaceable) h.counted hk hs).1
    have hsame : t.settings = s.settings ∧ t.callers = s.callers := by
      rcases inlineOne_eq_ok hs with ⟨-, rfl, -⟩ |
        ⟨-, -, -, -, -, -, -, -, -, -, -, -, -, -, -, -, -, -, -, rfl, -⟩
      · exact ⟨rfl, rfl⟩
      · exact ⟨rfl, rfl⟩
    refine ⟨fun y hy => hy.turn h.counted ht, ⟨ht.counted h.counted, hsame.1.trans h.agrees,
      h.preserves.turn ht, fun c hc => ?_, fun j hj => h.callers j (hsame.2 ▸ hj), fun j hj => ?_⟩⟩
    · rcases callees_inlineOne h.counted hs c hc with hc | ⟨f, hf, hc⟩
      · exact h.callees c hc
      · exact (hpick f hf).2 c hc
    · rcases (queue_inlineOne hs).2 j hj with hj | rfl
      · exact h.touched j hj
      · exact hk

theorem removeDead_preserves (h : m.Preserves K n) (hl : ∀ k ∈ l, K k) :
    m.Preserves K (removeDead n l) := by
  unfold removeDead
  induction l generalizing n with
  | nil => exact h
  | cons k l ih =>
    obtain ⟨hk, hl⟩ := forall_mem_cons.mp hl
    exact ih (h.modifyFunction hk fun f _ => Function.face_eq_of_header
      (Function.removeBlocks_frame f.deadBlocks f).1) hl

theorem removeUnused_cases (callees : List FuncId) (fuel count : Nat) (m : Module) :
    (removeUnused callees fuel m count).1.globals = m.globals ∧
    (∀ k f, (removeUnused callees fuel m count).1.function? k = some f → m.function? k = some f) ∧
    ∀ k f, m.function? k = some f → (removeUnused callees fuel m count).1.function? k = none →
      k ∈ callees ∧ f.attributes.linkage.isLocal = true := by
  induction fuel generalizing m count with
  | zero => exact ⟨rfl, fun _ _ hf => hf, fun k f hf hnone => by cases hf.symm.trans hnone⟩
  | succ fuel ih =>
    unfold removeUnused
    split
    · exact ⟨rfl, fun _ _ hf => hf, fun k f hf hnone => by cases hf.symm.trans hnone⟩
    · obtain ⟨hglobals, hkeep, hgone⟩ := ih (count + (unused m callees).length)
        ((unused m callees).foldl Module.removeFunction m)
      refine ⟨hglobals.trans (globals_removeFunctions m _), fun k f hf => ?_, fun k f hf hnone => ?_⟩
      · have hf := hkeep k f hf
        rw [function?_removeFunctions] at hf
        split at hf
        · cases hf
        · exact hf
      · by_cases hdead : k ∈ unused m callees
        · obtain ⟨hmem, htest⟩ := mem_filter.mp hdead
          rw [hf] at htest
          exact ⟨hmem, (Bool.and_eq_true_iff.mp htest).1⟩
        · refine hgone k f ?_ hnone
          rw [function?_removeFunctions, if_neg hdead]
          exact hf

end Rounds

def Function.without (f : Function) (drop : Operation Instruction → Bool) : Function :=
  { f with
    graph := f.graph.mapBlocks fun b =>
      { b with instructions := b.instructions.filter fun o => !drop o } }

theorem Function.without_false (f : Function) : f.without (fun _ => false) = f :=
  congrArg (fun t => { f with graph := { f.graph with blocks := t } })
    (Table.mapWithKey_eq_self fun _ b _ => by simp)

def Function.isIdleRef (f : Function) (callees : List FuncId) (o : Operation Instruction) : Bool :=
  match o.kind with
  | .functionRef d c => callees.contains c && !f.uses.contains d
  | _ => false

/-- What fusion does not do to a module, where the functions `inlined` were inlined. -/
structure Module.Shields (settings : Settings) (inlined : List FuncId) (m n : Module) : Prop where
  globals : n.globals = m.globals
  /-- Functions that are not to be optimized and declarations stay as they are. -/
  protected_ : ∀ k f, m.function? k = some f →
    f.attributes.optimizeNone = true ∨ f.isDeclaration = true → n.function? k = some f
  face : ∀ k g, n.function? k = some g → ∃ f, m.function? k = some f ∧ g.face = f.face
  linked : ∀ k f, m.function? k = some f → f.attributes.linkage.isLocal = false →
    ∃ g, n.function? k = some g
  /-- A function that asks not to be inlined loses nothing but addresses that it does not read. -/
  never : settings.ignoreNoInline = false → ∀ k f g, m.function? k = some f →
    f.attributes.inline = .never → n.function? k = some g →
      ∃ drop, g = f.without drop ∧ ∀ o ∈ f.instructions, drop o = true →
        ∃ d c, o.kind = .functionRef d c ∧ c ∈ inlined ∧ d ∉ f.uses

namespace Rounds

variable {settings : Settings} {m n m' : Module} {callees : List FuncId} {t : Rounds}
  {e : Option FusionFault}

theorem dropRefs_eq (callees : List FuncId) (f : Function) : dropRefs callees f =
    if f.isOptimizable then f.without (f.isIdleRef callees) else f := by
  unfold dropRefs
  split
  · refine congrArg (fun c => { f with graph := f.graph.mapBlocks c }) (funext fun b => ?_)
    refine congrArg (fun is => { b with instructions := is }) (filter_congr fun o _ => ?_)
    unfold Function.isIdleRef
    cases o.kind <;> simp
  · rfl

theorem face_dropRefs (callees : List FuncId) (f : Function) :
    (dropRefs callees f).face = f.face := by
  unfold dropRefs
  split
  · rfl
  · rfl

theorem mem_of_isIdleRef {f : Function} {o : Operation Instruction}
    (h : f.isIdleRef callees o = true) :
    ∃ d c, o.kind = .functionRef d c ∧ c ∈ callees ∧ d ∉ f.uses := by
  unfold Function.isIdleRef at h
  split at h
  · next d c hk =>
    obtain ⟨hc, hd⟩ := Bool.and_eq_true_iff.mp h
    exact ⟨d, c, hk, contains_iff_mem.mp hc, by simpa using hd⟩
  · cases h

theorem shields_of_preserves (h : m.Preserves (m.Changeable settings) m')
    (hcallees : ∀ c ∈ callees, m.Replaceable c) (hglobals : n.globals = m'.globals)
    (hkeep : ∀ k g, n.function? k = some g →
      ∃ f, m'.function? k = some f ∧ (g = f ∨ g = dropRefs callees f))
    (hgone : ∀ k f, m'.function? k = some f → n.function? k = none →
      k ∈ callees ∧ f.attributes.linkage.isLocal = true) :
    m.Shields settings callees n where
  globals := by
    rw [hglobals, h.rest]
  protected_ := by
    intro k f hf hguard
    have hopt : f.isOptimizable = false := by
      rcases hguard with hguard | hguard <;> simp [Function.isOptimizable, hguard]
    have hsame : m'.function? k = some f := by
      rw [h.same k, hf]
      rintro ⟨f', hf', hopt', -⟩
      cases hf.symm.trans hf'
      cases hopt.symm.trans hopt'
    cases hn : n.function? k with
    | none =>
      obtain ⟨f', hf', hopt'⟩ := hcallees k (hgone k f hsame hn).1
      cases hf.symm.trans hf'
      cases hopt.symm.trans hopt'
    | some g =>
      obtain ⟨f', hf', hg⟩ := hkeep k g hn
      cases hsame.symm.trans hf'
      rw [dropRefs_eq, hopt] at hg
      exact congrArg some (hg.elim id id)
  face := by
    intro k g hg
    obtain ⟨f', hf', hor⟩ := hkeep k g hg
    obtain ⟨f, hf, hface⟩ := h.face k f' hf'
    refine ⟨f, hf, Eq.trans ?_ hface⟩
    rcases hor with rfl | rfl
    · rfl
    · exact face_dropRefs callees f'
  linked := by
    intro k f hf hlocal
    obtain ⟨f', hf'⟩ := h.there k f hf
    obtain ⟨f₀, hf₀, hface⟩ := h.face k f' hf'
    cases hf.symm.trans hf₀
    cases hn : n.function? k with
    | some g => exact ⟨g, rfl⟩
    | none =>
      have hlinkage : f'.attributes.linkage = f.attributes.linkage :=
        congrArg (fun x : Header => x.attributes.linkage) hface
      have hgone := (hgone k f' hf' hn).2
      rw [hlinkage, hlocal] at hgone
      cases hgone
  never := by
    intro hignore k f g hf hnever hg
    obtain ⟨f', hf', hor⟩ := hkeep k g hg
    have hsame : f' = f := by
      rw [h.same k, hf] at hf'
      · exact (Option.some.inj hf').symm
      · rintro ⟨f₀, hf₀, -, hhint⟩
        cases hf.symm.trans hf₀
        rw [hignore] at hhint
        exact hhint.elim (absurd hnever) fun hf => by cases hf
    subst hsame
    rw [dropRefs_eq] at hor
    split at hor
    · rcases hor with rfl | rfl
      · exact ⟨_, g.without_false.symm, fun o _ hdrop => by cases hdrop⟩
      · exact ⟨_, rfl, fun o _ hdrop => mem_of_isIdleRef hdrop⟩
    · rw [hor.elim id id]
      exact ⟨_, f'.without_false.symm, fun o _ hdrop => by cases hdrop⟩

/-- Fusion leaves code alone that it is told to leave alone, in every module in which no two operations
of a function share a number and their counter exceeds these numbers. -/
theorem run_shields (h : m.Counted) (hs : (start settings m).run = .ok (t, e)) :
    m.Shields settings t.callees t.module := by
  have hstart : Shielded settings m [] (start settings m) :=
    ⟨h, rfl, .refl _ m, (fun c hc => by cases hc), (fun k hk => by cases hk), fun k hk => by cases hk⟩
  rcases (guarded_shielded settings m).run hstart (fun y hy => by cases hy) hs with
    ⟨u, -, hu, rfl⟩ | ⟨-, l, ht⟩
  · have hpreserves := removeDead_preserves hu.preserves hu.callers
    obtain ⟨hglobals, hkeep, hgone⟩ := removeUnused_cases u.callees (u.callees.length + 1) 0
      { removeDead u.module u.callers with
        functions := (removeDead u.module u.callers).functions.map (dropRefs u.callees) }
    have hmap := Table.get?_map (removeDead u.module u.callers).functions (dropRefs u.callees)
    refine shields_of_preserves hpreserves hu.callees hglobals (fun k g hg => ?_) fun k f hf hnone => ?_
    · obtain ⟨f, hf, rfl⟩ := map_eq_some_iff.mp ((hmap k).symm.trans (hkeep k g hg))
      exact ⟨f, hf, .inr rfl⟩
    · obtain ⟨hmem, hlocal⟩ := hgone k (dropRefs u.callees f)
        ((hmap k).trans (congrArg (Option.map _) hf)) hnone
      have hlinkage : (dropRefs u.callees f).attributes.linkage = f.attributes.linkage :=
        congrArg (fun x : Header => x.attributes.linkage) (face_dropRefs u.callees f)
      exact ⟨hmem, hlinkage ▸ hlocal⟩
  · exact shields_of_preserves ht.preserves ht.callees rfl (fun k g hg => ⟨g, hg, .inl rfl⟩)
      fun k f hf hnone => by cases hf.symm.trans hnone

def archive : Module where
  name := "archive"
  functions := .ofList [
    (⟨0⟩, { Function.create ⟨0⟩ "leaf" [("x", .i64)] .i64 with
      graph := ⟨.ofList [
        (⟨0⟩, ⟨⟨0⟩, none, [], [], .plain ⟨0⟩ (.ret (some (.reg ⟨0⟩)))⟩)], ⟨0⟩, 1, 1⟩ }),
    (⟨1⟩, { Function.create ⟨1⟩ "kept" [("x", .i64)] .i64 with
      attributes := ⟨.internal, .auto, true, none⟩
      graph := ⟨.ofList [
        (⟨0⟩, ⟨⟨0⟩, none, [], [], .plain ⟨0⟩ (.ret (some (.reg ⟨0⟩)))⟩)], ⟨0⟩, 1, 1⟩ }),
    (⟨2⟩, { Function.create ⟨2⟩ "shy" [("x", .i64)] .i64 with
      attributes := ⟨.public_, .never, false, none⟩
      nextReg := 3
      graph := ⟨.ofList [
        (⟨0⟩, ⟨⟨0⟩, none, [],
          [.plain ⟨0⟩ (.functionRef ⟨1⟩ ⟨0⟩), .plain ⟨1⟩ (.call (some ⟨2⟩) ⟨1⟩ [.reg ⟨0⟩])],
          .plain ⟨2⟩ (.ret (some (.reg ⟨2⟩)))⟩)], ⟨0⟩, 1, 3⟩ }),
    (⟨3⟩, Function.declaration ⟨3⟩ "elsewhere" [("x", .i64)] .i64),
    (⟨4⟩, { Function.create ⟨4⟩ "main" [("n", .i64)] .i64 with
      attributes := ⟨.public_, .auto, false, none⟩
      nextReg := 5
      graph := ⟨.ofList [
        (⟨0⟩, ⟨⟨0⟩, none, [],
          [.plain ⟨0⟩ (.call (some ⟨1⟩) ⟨0⟩ [.reg ⟨0⟩]),
            .plain ⟨1⟩ (.call (some ⟨2⟩) ⟨0⟩ [.reg ⟨1⟩]),
            .plain ⟨2⟩ (.call (some ⟨3⟩) ⟨2⟩ [.reg ⟨2⟩]),
            .plain ⟨3⟩ (.call (some ⟨4⟩) ⟨3⟩ [.reg ⟨3⟩])],
          .plain ⟨4⟩ (.ret (some (.reg ⟨4⟩)))⟩)], ⟨0⟩, 1, 5⟩ })]
  globals := .empty
  nextFunction := 5
  nextGlobal := 0

theorem archive_shielded : archive.Counted ∧ ∃ t e, (start .default archive).run = .ok (t, e) ∧
    t.module.function? ⟨0⟩ = none ∧ t.module.function? ⟨1⟩ = archive.function? ⟨1⟩ ∧
    t.module.function? ⟨2⟩ ≠ archive.function? ⟨2⟩ ∧ archive.Shields .default t.callees t.module := by
  have h : archive.Counted := by decide +kernel
  have hend : (start .default archive).run.toOption.map (fun x =>
      decide (x.1.module.function? ⟨0⟩ = none ∧ x.1.module.function? ⟨1⟩ = archive.function? ⟨1⟩ ∧
        x.1.module.function? ⟨2⟩ ≠ archive.function? ⟨2⟩)) = some true := by decide +kernel
  cases hs : (start .default archive).run with
  | error a =>
    rw [hs] at hend
    cases hend
  | ok x =>
    rw [hs] at hend
    obtain ⟨hleaf, hkept, hshy⟩ := of_decide_eq_true (Option.some.inj hend)
    exact ⟨h, x.1, x.2, rfl, hleaf, hkept, hshy, run_shields h hs⟩

theorem exists_unshielded
    (hend : (start settings m).run.toOption.map (fun x =>
      decide (x.2 = none ∧ x.1.module.function? k = none)) = some true)
    (hkept : (m.function? k).map (fun f => f.attributes.optimizeNone) = some true) :
    ∃ t f, (start settings m).run = .ok (t, none) ∧ m.function? k = some f ∧
      f.attributes.optimizeNone = true ∧ t.module.function? k = none ∧
      ¬ m.Shields settings t.callees t.module := by
  obtain ⟨f, hf, hnone⟩ := map_eq_some_iff.mp hkept
  cases hs : (start settings m).run with
  | error a =>
    rw [hs] at hend
    cases hend
  | ok x =>
    rw [hs] at hend
    obtain ⟨x, e⟩ := x
    obtain ⟨rfl, hgone⟩ := of_decide_eq_true (Option.some.inj hend)
    refine ⟨x, f, rfl, hf, hnone, hgone, fun hshields => ?_⟩
    cases (hshields.protected_ k f hf (.inl hnone)).symm.trans hgone

def twins : Module where
  name := "twins"
  functions := .ofList [
    (⟨0⟩, { Function.create ⟨0⟩ "kept" [] .void with
      attributes := ⟨.internal, .auto, true, none⟩
      graph := ⟨.ofList [(⟨0⟩, ⟨⟨0⟩, none, [], [], .plain ⟨0⟩ (.ret none)⟩)], ⟨0⟩, 1, 1⟩ }),
    (⟨1⟩, { Function.create ⟨1⟩ "leaf" [] .void with
      graph := ⟨.ofList [(⟨0⟩, ⟨⟨0⟩, none, [], [], .plain ⟨0⟩ (.ret none)⟩)], ⟨0⟩, 1, 1⟩ }),
    (⟨2⟩, { Function.create ⟨2⟩ "main" [] .void with
      attributes := ⟨.public_, .auto, false, none⟩
      graph := ⟨.ofList [
        (⟨0⟩, ⟨⟨0⟩, none, [],
          [.plain ⟨0⟩ (.call none ⟨0⟩ []), .plain ⟨0⟩ (.call none ⟨1⟩ [])],
          .plain ⟨1⟩ (.ret none)⟩)], ⟨0⟩, 1, 2⟩ })]
  globals := .empty
  nextFunction := 3
  nextGlobal := 0

/-- A function that is not to be optimized can be lost where two operations share a number. -/
theorem twins_unshielded :
    (∀ k f, twins.function? k = some f → f.id = k ∧ ∀ j b, f.graph.block? j = some b → b.id = j) ∧
    ∃ t f, (start .default twins).run = .ok (t, none) ∧ twins.function? ⟨0⟩ = some f ∧
      f.attributes.optimizeNone = true ∧ t.module.function? ⟨0⟩ = none ∧
      ¬ twins.Shields .default t.callees t.module := by
  have hkeys : ∀ k f, twins.functions.get? k = some f →
      f.id = k ∧ ∀ j b, f.graph.blocks.get? j = some b → b.id = j := by decide +kernel
  exact ⟨hkeys, exists_unshielded (by decide +kernel) (by decide +kernel)⟩

def worn : Module :=
  { twins with
    name := "worn"
    functions := twins.functions.insert ⟨2⟩ { Function.create ⟨2⟩ "main" [] .void with
      attributes := ⟨.public_, .auto, false, none⟩
      graph := ⟨.ofList [
        (⟨0⟩, ⟨⟨0⟩, none, [],
          [.plain ⟨20⟩ (.call none ⟨0⟩ []), .plain ⟨21⟩ (.call none ⟨1⟩ []),
            .plain ⟨22⟩ (.call none ⟨1⟩ [])],
          .plain ⟨23⟩ (.ret none)⟩)], ⟨0⟩, 1, 12⟩ } }

/-- It can be lost too where the operations have numbers of their own, and the counter is stale. -/
theorem worn_unshielded :
    (∀ k f, worn.function? k = some f →
      f.id = k ∧ (∀ j b, f.graph.block? j = some b → b.id = j) ∧ f.opIds.Nodup) ∧
    ∃ t f, (start .default worn).run = .ok (t, none) ∧ worn.function? ⟨0⟩ = some f ∧
      f.attributes.optimizeNone = true ∧ t.module.function? ⟨0⟩ = none ∧
      ¬ worn.Shields .default t.callees t.module := by
  have hkeys : ∀ k f, worn.functions.get? k = some f →
      f.id = k ∧ (∀ j b, f.graph.blocks.get? j = some b → b.id = j) ∧ f.opIds.Nodup := by
    decide +kernel
  exact ⟨hkeys, exists_unshielded (by decide +kernel) (by decide +kernel)⟩

end Rounds

end SiteFusion
