import SiteFusion.Proofs.CallRecords
import SiteFusion.Proofs.SoundRounds

namespace SiteFusion

open List

namespace Function

variable {f g h : Function} {P : FuncId → Prop}

def CallsOnly (C : OpId → FuncId → Prop) (f : Function) : Prop :=
  f.Lawful ⟨fun _ => True, fun _ => True, C, False, False⟩

theorem callsOnly_iff {C : OpId → FuncId → Prop} : f.CallsOnly C ↔ ∀ o c, f.Calls o c → C o c := by
  constructor
  · rintro hf - c ⟨k, b, hb, o, ho, rfl, hc⟩
    exact ((hf.block k b hb).instructions o ho).1.2 c hc
  · refine fun hf => f.lawful_of_allows (fun hs => hs) fun o ho =>
      ⟨⟨fun _ _ => trivial, fun _ _ => trivial⟩, fun c hc => ?_⟩
    obtain ⟨k, b, hb, ho⟩ := mem_instructions.mp ho
    exact hf o.id c ⟨k, b, hb, o, ho, rfl, hc⟩

/-- What becomes of a function: numbers of operations are handed out upwards, so that a number that
is gone never comes back. -/
structure Ages (f g : Function) : Prop where
  counted : g.Counted False
  face : g.face = f.face
  nextOp : f.graph.nextOp ≤ g.graph.nextOp
  old : ∀ o ∈ g.opIds, o.index < f.graph.nextOp → o ∈ f.opIds

/-- How a step changes the body of a function. Calls with old numbers are those that were there, or
calls of functions in `P`. -/
structure Advances (P : FuncId → Prop) (f g : Function) : Prop extends Ages f g where
  calls : g.CallsOnly fun o c => f.Calls o c ∨ P c ∨ f.graph.nextOp ≤ o.index

theorem callsOnly_self (P : FuncId → Prop) (f : Function) :
    f.CallsOnly fun o c => f.Calls o c ∨ P c ∨ f.graph.nextOp ≤ o.index :=
  callsOnly_iff.mpr fun _ _ hc => .inl hc

theorem mem_opIds_of_calls {o : OpId} {c : FuncId} (h : f.Calls o c) : o ∈ f.opIds := by
  obtain ⟨k, b, hb, a, ha, rfl, -⟩ := h
  refine Table.mem_flatMap_values.mpr ⟨k, b, hb, ?_⟩
  rw [Block.opIds_eq]
  exact mem_append_left _ (mem_append_right _ (List.mem_map_of_mem ha))

theorem Counted.callee_unique (h : f.Counted False) {o : OpId} {c d : FuncId} (hc : f.Calls o c)
    (hd : f.Calls o d) : c = d := by
  obtain ⟨k, b, hb, a, ha, rfl, hca⟩ := hc
  obtain ⟨k', b', hb', a', ha', hid, hda⟩ := hd
  have he := h.instruction_unique (mem_instructions.mpr ⟨k', b', hb', ha'⟩)
    (mem_instructions.mpr ⟨k, b, hb, ha⟩) hid
  rw [he, hca] at hda
  exact Option.some.inj hda

theorem Counted.calls_of_instruction? (h : f.Counted False) {op : OpId} {o : Operation Instruction}
    {c : FuncId} (ho : f.graph.instruction? op = some o) (hc : o.kind.callee? = some c) :
    f.Calls op c := by
  obtain ⟨hmem, hid⟩ := Site.instruction?_eq_some h ho
  obtain ⟨k, b, hb, ho⟩ := mem_instructions.mp hmem
  exact ⟨k, b, hb, o, ho, hid, hc⟩

theorem Ages.refl (hf : f.Counted False) : f.Ages f := ⟨hf, rfl, UInt32.le_refl _, fun _ ho _ => ho⟩

theorem Ages.trans (h₁ : f.Ages g) (h₂ : g.Ages h) : f.Ages h :=
  ⟨h₂.counted, h₂.face.trans h₁.face, UInt32.le_trans h₁.nextOp h₂.nextOp, fun o ho hlt =>
    h₁.old o (h₂.old o ho (UInt32.lt_of_lt_of_le hlt h₁.nextOp)) hlt⟩

theorem Counted.aside (hf : f.Counted False) {o : OpId} (ho : o ∉ f.opIds)
    (hlt : o.index < f.graph.nextOp) : f.Spare (f.outline False False) [o] [] := by
  have hs := Function.counted_iff.mp hf
  refine ⟨hs.header, hs.blockKey, hs.blockBound, fun a ha => ?_, hs.defBound, fun a => ?_,
    hs.defOnce, hs.floor⟩
  · by_cases hao : a = o
    · exact hao ▸ hlt
    · rw [count_singleton, if_neg (by simpa using Ne.symm hao)] at ha
      exact hf.opBound a (count_pos_iff.mp ha)
  · by_cases hao : a = o
    · rw [hao, count_eq_zero_of_not_mem ho, count_singleton_self]
    · rw [count_singleton, if_neg (by simpa using Ne.symm hao)]
      exact nodup_iff_count.mp hf.opOnce a

theorem Counted.ages (hf : f.Counted False)
    (hg : ∀ ops, f.Spare (f.outline False False) ops [] → g.Spare (f.outline False False) ops []) :
    f.Ages g := by
  have hs := hg [] (Function.counted_iff.mp hf)
  refine ⟨hs.counted, face_eq_of_header hs.header, hs.floor, fun o ho hlt => ?_⟩
  by_contra hn
  have honce := (hg [o] (hf.aside hn hlt)).opOnce o
  have hpos := count_pos_iff.mpr ho
  rw [count_singleton_self] at honce
  omega

end Function

/-- All functions are listed under the numbers they carry, and the numbers of operations come from
their counters. Those of blocks and registers need not. -/
structure Module.Counted (m : Module) : Prop where
  functionKey : ∀ k f, m.function? k = some f → f.id = k
  function : ∀ k f, m.function? k = some f → f.Counted False

instance (m : Module) : Decidable m.Counted :=
  decidable_of_iff (∀ k f, m.functions.get? k = some f → f.id = k ∧ f.Counted False)
    ⟨fun h => ⟨fun k f hf => (h k f hf).1, fun k f hf => (h k f hf).2⟩,
      fun h k f hf => ⟨h.functionKey k f hf, h.function k f hf⟩⟩

def Module.Ages (m n : Module) : Prop :=
  ∀ k g, n.function? k = some g → ∃ f, m.function? k = some f ∧ f.Ages g

namespace Module

variable {K P : FuncId → Prop} {m n m₁ m₂ m₃ : Module} {k : FuncId} {g : Function}

theorem Counted.ages (h : m.Counted) : m.Ages m := fun k g hg => ⟨g, hg, .refl (h.function k g hg)⟩

theorem Ages.trans (h : m₁.Ages m₂) (h' : m₂.Ages m₃) : m₁.Ages m₃ := by
  intro k g hg
  obtain ⟨f₂, hf₂, ha'⟩ := h' k g hg
  obtain ⟨f₁, hf₁, ha⟩ := h k f₂ hf₂
  exact ⟨f₁, hf₁, ha.trans ha'⟩

theorem Ages.counted (h : m.Ages n) (hm : m.Counted) : n.Counted := by
  refine ⟨fun k g hg => ?_, fun k g hg => ?_⟩
  · obtain ⟨f, hf, ha⟩ := h k g hg
    exact (congrArg Header.id ha.face).trans (hm.functionKey k f hf)
  · obtain ⟨f, -, ha⟩ := h k g hg
    exact ha.counted

def Turns (K P : FuncId → Prop) (m n : Module) : Prop :=
  n = m ∨ ∃ k f g, K k ∧ m.function? k = some f ∧ f.Advances P g ∧ n = m.setFunction k g

theorem Turns.function (h : m.Turns K P n) (hm : m.Counted) (hg : n.function? k = some g) :
    ∃ f, m.function? k = some f ∧ f.Advances P g := by
  have hself : ∀ {f}, m.function? k = some f → f.Advances P f := fun {f} hf =>
    ⟨.refl (hm.function k f hf), f.callsOnly_self P⟩
  rcases h with rfl | ⟨j, f, g', -, hf, hadv, rfl⟩
  · exact ⟨g, hg, hself hg⟩
  · rcases cases_of_setFunction hf hg with ⟨rfl, rfl⟩ | ⟨-, hg⟩
    · exact ⟨f, hf, hadv⟩
    · exact ⟨g, hg, hself hg⟩

theorem Turns.ages (h : m.Turns K P n) (hm : m.Counted) : m.Ages n := by
  intro k g hg
  obtain ⟨f, hf, hadv⟩ := h.function hm hg
  exact ⟨f, hf, hadv.toAges⟩

theorem Turns.counted (h : m.Turns K P n) (hm : m.Counted) : n.Counted := (h.ages hm).counted hm

end Module

namespace Site

variable {K P : FuncId → Prop} {m n : Module} {k : FuncId} {y : FuncId × OpId}

/-- A number that has been handed out, and that belongs to calls of functions in `P` only. -/
def Picks (P : FuncId → Prop) (y : FuncId × OpId) (m : Module) : Prop :=
  ∀ f, m.function? y.1 = some f → y.2.index < f.graph.nextOp ∧ ∀ c, f.Calls y.2 c → P c

theorem Picks.turn (h : Picks P y m) (hm : m.Counted) (ht : m.Turns K P n) : Picks P y n := by
  intro g hg
  obtain ⟨f, hf, hadv⟩ := ht.function hm hg
  obtain ⟨hlt, hcalls⟩ := h f hf
  refine ⟨UInt32.lt_of_lt_of_le hlt hadv.nextOp, fun c hc => ?_⟩
  rcases Function.callsOnly_iff.mp hadv.calls y.2 c hc with hc | hc | hle
  · exact hcalls c hc
  · exact hc
  · exact absurd hlt (UInt32.not_lt.mpr hle)

theorem build_nil (m : Module) (caller callee : FuncId) :
    build m caller callee [] = .ok (m, none) := by
  unfold build
  split
  · exact if_pos rfl
  · rfl

theorem build_turns {callee : FuncId} {calls : List OpId} {site : Option Site} (h : m.Counted)
    (hk : K k) (hcalls : ∀ op ∈ calls, ∀ f c, m.function? k = some f → f.Calls op c → P c)
    (hm : build m k callee calls = .ok (n, site)) :
    m.Turns K P n ∧ ∀ x op, site = some x → x.call = some op →
      (∃ f, m.function? k = some f ∧ f.graph.nextOp ≤ op.index) ∧ Picks P (k, op) n := by
  cases calls with
  | nil =>
    rw [build_nil] at hm
    cases hm
    exact ⟨.inl rfl, fun x op hx => by cases hx⟩
  | cons op calls =>
    rcases build_cases hm with ⟨rfl, rfl⟩ | ⟨f, target, fused, g, hf, -, hcollect, hg, rfl⟩
    · exact ⟨.inl rfl, fun x op hx => by cases hx⟩
    · have hc := h.function k f hf
      obtain ⟨hops, hnodup, hfused⟩ := collectCalls_eq_some hcollect
      have hspare := fun ops (hs : f.Spare (f.outline False False) ops []) =>
        fuseCalls_spare hs False.elim (hops ▸ hnodup) (fun c hmem => by
          obtain ⟨o, ho, hkind, -⟩ := hfused c hmem
          obtain ⟨ho, hid⟩ := instruction?_eq_some hc ho
          exact ⟨o, ho, hid, by rw [hkind]; rfl⟩) hg
      have hcallee : P callee := by
        obtain ⟨c, hmem, hop⟩ := List.mem_map.mp (hops ▸ mem_cons_self : op ∈ fused.map Fused.op)
        obtain ⟨o, ho, hkind, -⟩ := hfused c hmem
        exact hcalls op mem_cons_self f callee hf
          (hop ▸ hc.calls_of_instruction? ho (by rw [hkind]; rfl))
      have honly : g.CallsOnly fun o c => f.Calls o c ∨ P c :=
        (fuseCalls_leads (Function.callsOnly_iff.mpr fun _ _ hc => .inl hc) trivial
          (fun _ => .inr hcallee) hg).lawful
      refine ⟨.inr ⟨k, f, g, hk, hf, ⟨hc.ages fun ops hs => (hspare ops hs).1,
        Function.callsOnly_iff.mpr fun o c hc =>
          (Function.callsOnly_iff.mp honly o c hc).imp_right .inl⟩, rfl⟩, fun x op hx hop => ?_⟩
      obtain ⟨op', hop', hfloor, hlt⟩ := (hspare [] (Function.counted_iff.mp hc)).2.2 x hx
      cases hop.symm.trans hop'
      refine ⟨⟨f, hf, hfloor⟩, fun g' hg' => ?_⟩
      cases (Module.function?_setFunction_self hf).symm.trans hg'
      refine ⟨hlt, fun c hcall => ?_⟩
      refine (Function.callsOnly_iff.mp honly op c hcall).resolve_left fun hold => ?_
      have hbound := hc.opBound op (Function.mem_opIds_of_calls hold)
      exact absurd hbound (UInt32.not_lt.mpr hfloor)

theorem extend_turns {site : Site} {op : OpId} {joined : Bool} (h : m.Counted)
    (hk : K site.caller) (hm : site.extend m op = .ok (n, joined)) : m.Turns K P n := by
  rcases extend_cases hm with ⟨rfl, -⟩ | ⟨caseSlot, f, o, dest, callee, args, result, g, -, hf, ho,
    hkind, hg, rfl⟩
  · exact .inl rfl
  · have hc := h.function _ f hf
    obtain ⟨hmem, hid⟩ := instruction?_eq_some hc ho
    rw [← hid] at hg
    exact .inr ⟨_, f, g, hk, hf,
      ⟨hc.ages fun ops hs => join_spare hs hmem (by rw [hkind]; rfl) hg,
        (join_leads (f.callsOnly_self P) False.elim hg).lawful⟩, rfl⟩

end Site

namespace Rounds

variable {s t : Rounds} {k : FuncId} {e : Option FusionFault} {s₁ s₂ s₃ : Rounds} {K P : FuncId → Prop}

theorem spill_turns (h : s.module.Counted) (hk : K k) (hs : s.spill k = .ok (t, e)) :
    s.module.Turns K P t.module ∧
      ∃ n, t = { s with module := t.module }.addSpilled n := by
  rcases spill_cases hs with ⟨rfl, -⟩ | ⟨f, g, n, hf, h₁, -, rfl⟩
  · exact ⟨.inl rfl, ⟨0, 0⟩, rfl⟩
  · exact ⟨.inr ⟨k, f, g, hk, hf,
      ⟨(h.function k f hf).ages fun ops hs => Spill.demote_spare hs h₁,
        (Spill.demote_stays (f.callsOnly_self P) h₁).lawful⟩, rfl⟩, n, rfl⟩

theorem merge_turns {keep other : Site} {f g : Function} {done : Bool} (h : s.module.Counted)
    (hk : K k) (hf : s.module.function? k = some f) (hg : keep.merge f other = .ok (g, done)) :
    s.module.Turns K P (s.module.setFunction k g) :=
  .inr ⟨k, f, g, hk, hf, ⟨(h.function k f hf).ages fun _ hs => Site.merge_spare hs hg,
    (Site.merge_lawful (f.callsOnly_self P) False.elim hg).1⟩, rfl⟩

theorem inlineOne_turns {op : OpId} {l l' : List FuncId} (h : s.module.Counted) (hk : K k)
    (hs : s.inlineOne k op l = .ok (t, l')) :
    s.module.Turns K P t.module ∧ (Recorded.isRefused s.module k op = false →
      (∀ g, t.module.function? k = some g → op ∉ g.opIds) ∧ ∃ cs, t = { s with
        module := t.module
        callees := cs
        count := { s.count with inlined := s.count.inlined + 1 } }) := by
  rcases inlineOne_eq_ok hs with ⟨⟨x, hx⟩, rfl, -⟩ | ⟨f, callee, call, b, o, g, g', inlined, cs, -,
    hf, -, -, hl, hb, ho, hkind, hg, hg', rfl, -⟩
  · refine ⟨.inl rfl, fun hr => ?_⟩
    rw [Recorded.isRefused, hx] at hr
    cases hr
  · have hc := h.function k f hf
    have hspare := Function.counted_iff.mp hc
    obtain ⟨b', o', hb', ho', hid⟩ := hspare.locateInstruction hl
    cases hb.symm.trans hb'
    cases ho.symm.trans ho'
    have hstep : ∀ ops, f.Spare (f.outline False False) ops [] →
        g'.Spare (f.outline False False) (op :: ops) [] := fun ops hs =>
      hid ▸ restamp_spare (Inline.splice_spare hs (fun hf => hf.elim) hb ho
        (by rw [hkind]; rfl) hg) hg'
    have hages : f.Ages g' := hc.ages fun ops hs =>
      (hstep ops hs).forget (fun o => count_le_count_cons ..) fun _ => Nat.le_refl _
    have hany : callee.CallsOnly fun _ _ => True := Function.callsOnly_iff.mpr fun _ _ _ => trivial
    have hleads := Inline.splice_leads (f.callsOnly_self P) hany
      (fun o ho' c => .inr (.inr (Inline.le_of_mem_cloned hspare hb ho hg o ho'))) hg
    have hgraph := Inline.graph_adoptCollector g' callee
    refine ⟨.inr ⟨k, f, _, hk, hf, ⟨⟨Inline.adoptCollector_counted hages.counted callee,
      (Inline.face_adoptCollector g' callee).trans hages.face, ?_, ?_⟩,
      Inline.adoptCollector_lawful (restamp_leads hleads.lawful hg').lawful callee⟩, rfl⟩,
      fun _ => ⟨fun g₁ hg₁ hmem => ?_, cs, rfl⟩⟩
    · rw [hgraph]
      exact hages.nextOp
    · rw [Function.opIds, hgraph]
      exact hages.old
    · cases (Module.function?_setFunction_self hf).symm.trans hg₁
      rw [Function.opIds, hgraph] at hmem
      have honce := (hstep [] hspare).opOnce op
      have hpos := count_pos_iff.mpr hmem
      rw [count_singleton_self] at honce
      unfold Function.opIds at honce
      omega

/-- Moving values to memory and merging sites has no part in what is queued, excluded or
inlined. -/
structure Calm (s t : Rounds) : Prop where
  ages : s.module.Ages t.module
  queue : t.queue = s.queue
  excluded : t.excluded = s.excluded
  failed : t.count.failed = s.count.failed
  inlined : t.count.inlined = s.count.inlined

theorem calm_spill (h : s.module.Counted) (hs : s.spill k = .ok (t, e)) : s.Calm t := by
  obtain ⟨ht, n, he⟩ := spill_turns (K := fun _ => True) (P := fun _ => True) h trivial hs
  rw [he]
  exact ⟨ht.ages h, rfl, rfl, rfl, rfl⟩

theorem Calm.trans (h : s₁.Calm s₂) (h' : s₂.Calm s₃) : s₁.Calm s₃ :=
  ⟨h.ages.trans h'.ages, h'.queue.trans h.queue, h'.excluded.trans h.excluded,
    h'.failed.trans h.failed, h'.inlined.trans h.inlined⟩

theorem steady_calm (h : s.module.Counted) :
    Steady (fun _ => True) (fun site k _ => site.caller = k) (fun _ t _ => s.Calm t) where
  spill := fun hc _ hs => hc.trans (calm_spill (hc.ages.counted h) hs)
  found := fun {_ t k f _ _} hc _ hf hsite =>
    (Site.exists_of_mem_findAll (Site.mem_findAll_of_find hsite)).1.trans
      ((hc.ages.counted h).functionKey k f hf)
  merge := fun {_ t k f _ _ _ g _} hc _ hf _ _ _ hm => by
    have ht := hc.ages.counted h
    have hturns := merge_turns (K := fun _ => True) (P := fun _ => True) ht trivial hf hm
    exact ⟨hc.ages.trans (hturns.ages ht), hc.queue, hc.excluded, hc.failed, hc.inlined⟩
  stop := fun hc => ⟨hc.ages, hc.queue, hc.excluded, hc.failed, hc.inlined⟩

/-- What a run counts and excludes agrees with the record. -/
structure Tally (log : List CallEvent) (s : Rounds) : Prop where
  allowed : log.Pairwise CallEvent.Allows
  refused : ∀ c, .refused c ∈ log ↔ c ∈ s.excluded
  excluded : ∀ c ∈ s.excluded, .inlining c ∈ log
  distinct : s.excluded.Nodup
  failed : s.count.failed = s.excluded.length
  tried : (log.filterMap CallEvent.inlined?).length = s.count.inlined + s.count.failed

/-- A call was not tried yet, and its number has been handed out. -/
structure Ready (log : List CallEvent) (m : Module) (c : FuncId × OpId) : Prop where
  untried : .inlining c ∉ log
  known : ∀ f, m.function? c.1 = some f → c.2.index < f.graph.nextOp

/-- The calls that were tried are gone or excluded, and those that wait are ready. -/
structure History (log : List CallEvent) (s : Rounds) : Prop extends Tally log s where
  counted : s.module.Counted
  gone : ∀ c, .inlining c ∈ log → ∀ f, s.module.function? c.1 = some f →
    c.2.index < f.graph.nextOp ∧ (c.2 ∈ f.opIds → c ∈ s.excluded)
  queue : s.queue.Nodup
  waiting : ∀ c ∈ s.queue, Ready log s.module c

/-- How a run goes on while no call is inlined. -/
structure Continues (log : List CallEvent) (s : Rounds) (log' : List CallEvent) (t : Rounds) :
    Prop where
  history : History log' t
  ready : ∀ c, Ready log s.module c → Ready log' t.module c

variable {log log' log₁ log₂ : List CallEvent} {c : FuncId × OpId} {m n : Module} {op : OpId}

theorem Ready.ages (h : Ready log m c) (hm : m.Ages n) : Ready log n c := by
  refine ⟨h.untried, fun g hg => ?_⟩
  obtain ⟨f, hf, ha⟩ := hm c.1 g hg
  exact UInt32.lt_of_lt_of_le (h.known f hf) ha.nextOp

theorem Continues.trans (h : Continues log s₁ log₁ s₂) (h' : Continues log₁ s₂ log₂ s₃) :
    Continues log s₁ log₂ s₃ :=
  ⟨h'.history, fun c hc => h'.ready c (h.ready c hc)⟩

theorem History.continues (h : History log s) : Continues log s log s := ⟨h, fun _ hc => hc⟩

theorem History.calm (h : History log s) (ht : s.Calm t) : Continues log s log t := by
  refine ⟨⟨⟨h.allowed, ?_, ?_, ?_, ?_, ?_⟩, ht.ages.counted h.counted, fun c hc g hg => ?_, ?_, ?_⟩,
    fun c hc => hc.ages ht.ages⟩
  · rw [ht.excluded]
    exact h.refused
  · rw [ht.excluded]
    exact h.excluded
  · rw [ht.excluded]
    exact h.distinct
  · rw [ht.excluded, ht.failed]
    exact h.failed
  · rw [ht.failed, ht.inlined]
    exact h.tried
  · obtain ⟨f, hf, ha⟩ := ht.ages c.1 g hg
    obtain ⟨hlt, hexcluded⟩ := h.gone c hc f hf
    rw [ht.excluded]
    exact ⟨UInt32.lt_of_lt_of_le hlt ha.nextOp, fun ho => hexcluded (ha.old c.2 ho hlt)⟩
  · rw [ht.queue]
    exact h.queue
  · rw [ht.queue]
    exact fun c hc => (h.waiting c hc).ages ht.ages

theorem addNew_of_not_mem {α : Type} [DecidableEq α] {l : List α} {a : α} (h : a ∉ l) :
    addNew l a = l ++ [a] :=
  if_neg (mt contains_iff_mem.mp h)

theorem nodup_addNew {α : Type} [DecidableEq α] {l : List α} {a : α} (h : l.Nodup) :
    (addNew l a).Nodup := by
  by_cases ha : a ∈ l
  · rw [addNew, if_pos (contains_iff_mem.mpr ha)]
    exact h
  · rw [addNew_of_not_mem ha]
    exact nodup_append.mpr ⟨h, nodup_singleton a, fun b hb c hc he =>
      ha (mem_singleton.mp hc ▸ he ▸ hb)⟩

theorem History.enqueue (h : History log s) (hc : Ready log s.module (k, op)) :
    Continues log s log (s.enqueue k op) := by
  refine ⟨⟨⟨h.allowed, h.refused, h.excluded, h.distinct, h.failed, h.tried⟩, h.counted, h.gone,
    nodup_addNew h.queue, fun c hmem => ?_⟩, fun _ hc => hc⟩
  rcases mem_addNew.mp hmem with hmem | rfl
  · exact h.waiting c hmem
  · exact hc

theorem History.fuse (h : History log s) {x : CallEvent} (hx : x.inlined? = none)
    (hr : ∀ c, x ≠ .refused c) (hc : ∀ c ∈ x.fused, Ready log s.module c) :
    Continues log s (log ++ [x]) s := by
  have hi : ∀ c, .inlining c ∈ log ++ [x] → .inlining c ∈ log := by
    intro c hmem
    rcases mem_append.mp hmem with hmem | hmem
    · exact hmem
    · rw [← mem_singleton.mp hmem] at hx
      cases hx
  have hready : ∀ c, Ready log s.module c → Ready (log ++ [x]) s.module c := fun c hc =>
    ⟨fun hmem => hc.untried (hi c hmem), hc.known⟩
  refine ⟨⟨⟨?_, fun c => ?_, fun c hmem => mem_append_left _ (h.excluded c hmem),
    h.distinct, h.failed, ?_⟩, h.counted, fun c hmem => h.gone c (hi c hmem), h.queue,
    fun c hmem => hready c (h.waiting c hmem)⟩, hready⟩
  · refine pairwise_append.mpr ⟨h.allowed, pairwise_singleton _ _, fun y hy z hz => ?_⟩
    rw [mem_singleton.mp hz]
    refine ⟨fun c _ he => ?_, fun c he hmem => ?_⟩
    · rw [he] at hx
      cases hx
    · exact (hc c hmem).untried (h.excluded c ((h.refused c).mp (he ▸ hy)))
  · rw [← h.refused c, mem_append, mem_singleton]
    exact or_iff_left fun he => hr c he.symm
  · rw [filterMap_append, filterMap_cons, hx]
    simpa using h.tried

namespace Recorded

variable {α β : Type} {x : Recorded α} {f : α → Recorded β} {post : β → List CallEvent → Prop}
  {d : Bool} {g : CallGroup} {ops : List OpId} {touched : List FuncId}

/-- Nothing is recorded that is not allowed, and if there is a result it is as it should be. -/
def Meets (x : Recorded α) (log : List CallEvent) (post : α → List CallEvent → Prop) : Prop :=
  (log ++ x.events).Pairwise CallEvent.Allows ∧ ∀ a, x.result = .ok a → post a (log ++ x.events)

theorem Meets.mono {p q : α → List CallEvent → Prop} (h : x.Meets log p)
    (hq : ∀ a log', p a log' → q a log') : x.Meets log q :=
  ⟨h.1, fun a ha => hq a _ (h.2 a ha)⟩

theorem meets_pure {a : α} {p : α → List CallEvent → Prop} (hl : log.Pairwise CallEvent.Allows)
    (h : p a log) : (pure a : Recorded α).Meets log p := by
  refine ⟨(append_nil log).symm ▸ hl, fun b hb => ?_⟩
  cases hb
  exact (append_nil log).symm ▸ h

theorem Meets.bind {mid : α → List CallEvent → Prop} (hx : x.Meets log mid)
    (hf : ∀ a log', mid a log' → (f a).Meets log' post) : (x >>= f).Meets log post := by
  obtain ⟨events, result⟩ := x
  cases result with
  | error e => exact ⟨hx.1, fun b hb => by cases hb⟩
  | ok a =>
    obtain ⟨hl, hp⟩ := hf a _ (hx.2 a rfl)
    rw [append_assoc] at hl hp
    exact ⟨hl, hp⟩

theorem meets_note_bind {y : CallEvent} {f : Unit → Recorded β}
    (hf : (f ()).Meets (log ++ [y]) post) : (note y >>= f).Meets log post := by
  obtain ⟨hl, hp⟩ := hf
  rw [append_assoc] at hl hp
  exact ⟨hl, hp⟩

theorem meets_lift_bind {y : Edit α} (hl : log.Pairwise CallEvent.Allows)
    (hf : ∀ a, y = .ok a → (f a).Meets log post) : (lift y >>= f).Meets log post := by
  cases y with
  | error e => exact ⟨(append_nil log).symm ▸ hl, fun b hb => by cases hb⟩
  | ok a => exact hf a rfl

theorem extendSite_meets {site : Site} (h : History log s) (hsite : site.caller = k)
    (hr : ∀ op ∈ ops, Ready log s.module (k, op)) :
    (extendSite site k ops s d).Meets log fun y log' => Continues log s log' y.1 := by
  induction ops generalizing log s d with
  | nil => exact meets_pure h.allowed h.continues
  | cons op ops ih =>
    obtain ⟨hop, hops⟩ := forall_mem_cons.mp hr
    rw [extendSite]
    split
    · have h₁ := h.enqueue hop
      exact (ih h₁.history fun op hop => h₁.ready _ (hops op hop)).mono fun _ _ h₂ => h₁.trans h₂
    · refine meets_note_bind ?_
      have h₁ : Continues log s (log ++ [.joining (site.caller, op)]) s := by
        refine h.fuse rfl (fun _ he => by cases he) fun c hc => ?_
        rw [mem_singleton.mp hc, hsite]
        exact hop
      refine meets_lift_bind h₁.history.allowed fun y hm => ?_
      obtain ⟨m, joined⟩ := y
      have hages := (Site.extend_turns (K := fun _ => True) (P := fun _ => True) h.counted trivial
        hm).ages h.counted
      cases joined with
      | true =>
        have h₂ := h₁.trans (h₁.history.calm (t := { s with
          module := m
          count := { s.count with extended := s.count.extended + 1 } }) ⟨hages, rfl, rfl, rfl, rfl⟩)
        exact (ih h₂.history fun op hop => h₂.ready _ (hops op hop)).mono fun _ _ h₃ => h₂.trans h₃
      | false =>
        have h₂ := h₁.trans (h₁.history.calm (t := { s with module := m }) ⟨hages, rfl, rfl, rfl, rfl⟩)
        have h₃ := h₂.trans (h₂.history.enqueue (h₂.ready _ hop))
        exact (ih h₃.history fun op hop => h₃.ready _ (hops op hop)).mono fun _ _ h₄ => h₃.trans h₄

theorem continues_foldl_enqueue (h : History log s) (hr : ∀ op ∈ ops, Ready log s.module (k, op)) :
    Continues log s log (ops.foldl (fun s op => s.enqueue k op) s) := by
  induction ops generalizing s with
  | nil => exact h.continues
  | cons op ops ih =>
    obtain ⟨hop, hops⟩ := forall_mem_cons.mp hr
    have h₁ := h.enqueue hop
    exact h₁.trans (ih h₁.history hops)

theorem buildSite_meets (h : History log s) (hr : ∀ op ∈ g.calls, Ready log s.module (k, op)) :
    (buildSite s k g).Meets log fun y log' => Continues log s log' y.1 := by
  have h₁ : Continues log s (log ++ [.fusing (g.calls.map fun op => (k, op))]) s := by
    refine h.fuse rfl (fun _ he => by cases he) fun c hc => ?_
    obtain ⟨op, hop, rfl⟩ := List.mem_map.mp hc
    exact hr op hop
  refine ⟨?_, fun y hy => ?_⟩
  · exact h₁.history.allowed
  · obtain ⟨⟨m, site⟩, hm, hy⟩ := bind_eq_ok.mp hy
    obtain ⟨hturns, hnew⟩ := Site.build_turns (K := fun _ => True) (P := fun _ => True) h.counted
      trivial (fun _ _ _ _ _ _ => trivial) hm
    have hages := hturns.ages h.counted
    cases site with
    | some site =>
      have h₂ := h₁.trans (h₁.history.calm (t := { s with
        module := m
        count := { s.count with fused := s.count.fused + 1 } }) ⟨hages, rfl, rfl, rfl, rfl⟩)
      cases hy
      cases hcall : site.call with
      | none => exact h₂
      | some op =>
        obtain ⟨⟨f, hf, hle⟩, hpicks⟩ := hnew site op rfl hcall
        refine h₂.trans (h₂.history.enqueue ⟨fun hmem => ?_, fun f' hf' => (hpicks f' hf').1⟩)
        exact UInt32.not_lt.mpr hle (h₁.history.gone _ hmem f hf).1
    | none =>
      have h₂ := h₁.trans (h₁.history.calm (t := { s with module := m }) ⟨hages, rfl, rfl, rfl, rfl⟩)
      cases hy
      exact h₂.trans (continues_foldl_enqueue h₂.history fun op hop => h₂.ready _ (hr op hop))

theorem fuseGroup_meets (h : History log s) (hr : ∀ op ∈ g.calls, Ready log s.module (k, op)) :
    (fuseGroup s k g).Meets log fun y log' => Continues log s log' y.1.1 := by
  unfold fuseGroup
  split
  · next op hop =>
    have h₁ := h.enqueue (hr op (hop ▸ mem_singleton_self op))
    exact meets_pure h.allowed h₁
  · split
    · exact meets_pure h.allowed h.continues
    · refine meets_lift_bind h.allowed fun y hs => ?_
      obtain ⟨⟨s₁, e⟩, site⟩ := y
      obtain ⟨hcalm, -, hsite⟩ :=
        (steady_calm h.counted).existingSite (l := []) ⟨h.counted.ages, rfl, rfl, rfl, rfl⟩ trivial hs
      have h₁ := h.calm hcalm
      cases e with
      | some e => exact meets_pure h.allowed h₁
      | none =>
        cases site with
        | some site =>
          refine (extendSite_meets h₁.history (hsite site rfl) fun op hop =>
            h₁.ready _ (hr op hop)).bind fun y log' h₂ => ?_
          exact meets_pure h₂.history.allowed (h₁.trans h₂)
        | none =>
          refine (buildSite_meets h₁.history fun op hop => h₁.ready _ (hr op hop)).bind
            fun y log' h₂ => ?_
          exact meets_pure h₂.history.allowed (h₁.trans h₂)

theorem fuseGroups_meets {gs : List CallGroup} (h : History log s)
    (hr : ∀ g ∈ gs, ∀ op ∈ g.calls, Ready log s.module (k, op)) :
    (fuseGroups k gs s d).Meets log fun y log' => Continues log s log' y.1.1 := by
  induction gs generalizing log s d with
  | nil => exact meets_pure h.allowed h.continues
  | cons g gs ih =>
    obtain ⟨hg, hgs⟩ := forall_mem_cons.mp hr
    refine (fuseGroup_meets h hg).bind fun y log₁ h₁ => ?_
    obtain ⟨⟨s₁, e⟩, now⟩ := y
    cases e with
    | some e => exact meets_pure h₁.history.allowed h₁
    | none =>
      exact (ih h₁.history fun g hg op hop => h₁.ready _ (hgs g hg op hop)).mono
        fun _ _ h₂ => h₁.trans h₂

theorem fuseCallers_meets {cs : List CallerGroups} (h : History log s)
    (hr : ∀ c ∈ cs, ∀ g ∈ c.groups, ∀ op ∈ g.calls, Ready log s.module (c.caller, op)) :
    (fuseCallers cs s).Meets log fun y log' => History log' y.1 := by
  induction cs generalizing log s with
  | nil => exact meets_pure h.allowed h
  | cons c cs ih =>
    obtain ⟨hc, hcs⟩ := forall_mem_cons.mp hr
    refine (fuseGroups_meets h hc).bind fun y log₁ h₁ => ?_
    obtain ⟨⟨s₁, e⟩, changed⟩ := y
    cases e with
    | some e => exact meets_pure h₁.history.allowed h₁.history
    | none =>
      cases changed with
      | true =>
        refine meets_lift_bind h₁.history.allowed fun y hs => ?_
        obtain ⟨s₂, e⟩ := y
        have h₂ := h₁.trans (h₁.history.calm (calm_spill h₁.history.counted hs))
        cases e with
        | some e => exact meets_pure h₂.history.allowed h₂.history
        | none => exact ih h₂.history fun c hc g hg op hop => h₂.ready _ (hcs c hc g hg op hop)
      | false => exact ih h₁.history fun c hc g hg op hop => h₁.ready _ (hcs c hc g hg op hop)

theorem ready_of_candidate {callee : FuncId} (h : History log s)
    (hc : Candidates.Candidate s.module s.excluded s.settings k op callee) :
    Ready log s.module (k, op) := by
  obtain ⟨f, hf, -, hcall⟩ := hc.caller
  have hmem := Function.mem_opIds_of_calls hcall
  refine ⟨fun hlog => hc.tried ((h.gone _ hlog f hf).2 hmem), fun f' hf' => ?_⟩
  cases hf.symm.trans hf'
  exact (h.counted.function k f hf).opBound _ hmem

theorem fuseCandidates_meets (h : History log s) :
    (fuseCandidates s).Meets log fun y log' => History log' y.1 := by
  refine fuseCallers_meets h fun c hc g hg op hop => ?_
  refine ready_of_candidate h (Candidates.candidate_of_mem (c := g.callee) hc ?_)
  exact mem_flatMap.mpr ⟨g, hg, List.mem_map_of_mem hop⟩

theorem allowed_inlining (h : Tally log s) (hc : .inlining c ∉ log) :
    (log ++ [CallEvent.inlining c]).Pairwise CallEvent.Allows := by
  refine pairwise_append.mpr ⟨h.allowed, pairwise_singleton _ _, fun y hy z hz => ?_⟩
  rw [mem_singleton.mp hz]
  refine ⟨fun d he hd => ?_, fun _ _ hmem => absurd hmem not_mem_nil⟩
  cases hd
  exact hc (he ▸ hy)

theorem history_refused (h : History log s) (hq : s.queue = []) (hr : Ready log s.module c) :
    History (log ++ [.inlining c] ++ [.refused c]) { s with
      excluded := addNew s.excluded c
      count := { s.count with failed := s.count.failed + 1 } } := by
  have hnew : c ∉ s.excluded := fun hmem => hr.untried (h.excluded c hmem)
  refine ⟨⟨?_, fun d => ?_, fun d hd => ?_, nodup_addNew h.distinct, ?_, ?_⟩, h.counted,
    fun d hd f hf => ?_, h.queue, fun d hd => ?_⟩
  · refine pairwise_append.mpr ⟨allowed_inlining h.toTally hr.untried,
      pairwise_singleton _ _, fun y _ z hz => ?_⟩
    rw [mem_singleton.mp hz]
    exact ⟨fun _ _ he => (by cases he), fun _ _ hmem => absurd hmem not_mem_nil⟩
  · simp only [mem_append, mem_singleton, reduceCtorEq, or_false,
      CallEvent.refused.injEq, h.refused, mem_addNew]
  · simp only [mem_append, mem_singleton, reduceCtorEq, or_false,
      CallEvent.inlining.injEq]
    exact (mem_addNew.mp hd).imp_left (h.excluded d)
  · rw [addNew_of_not_mem hnew, length_append, ← h.failed]
    rfl
  · have htried := h.tried
    simp only [filterMap_append, length_append, filterMap_cons, filterMap_nil,
      CallEvent.inlined?, length_cons, length_nil]
    omega
  · simp only [mem_append, mem_singleton, reduceCtorEq, or_false,
      CallEvent.inlining.injEq] at hd
    rcases hd with hd | rfl
    · exact (h.gone d hd f hf).imp_right fun hex ho => mem_addNew.mpr (.inl (hex ho))
    · exact ⟨hr.known f hf, fun _ => mem_addNew.mpr (.inr rfl)⟩
  · exact absurd (hq ▸ hd) not_mem_nil

theorem history_inlined {cs : List FuncId} (h : History log s) (hq : s.queue = [])
    (hr : Ready log s.module c) (hm : s.module.Ages m)
    (hgone : ∀ g, m.function? c.1 = some g → c.2 ∉ g.opIds) :
    History (log ++ [.inlining c]) { s with
      module := m
      callees := cs
      count := { s.count with inlined := s.count.inlined + 1 } } := by
  refine ⟨⟨allowed_inlining h.toTally hr.untried, fun d => ?_, fun d hd => ?_, h.distinct,
    h.failed, ?_⟩, hm.counted h.counted, fun d hd g hg => ?_, h.queue, fun d hd => ?_⟩
  · simp only [mem_append, mem_singleton, reduceCtorEq, or_false, h.refused]
  · exact mem_append_left _ (h.excluded d hd)
  · have htried := h.tried
    simp only [filterMap_append, length_append, filterMap_cons, filterMap_nil,
      CallEvent.inlined?, length_cons, length_nil]
    omega
  · simp only [mem_append, mem_singleton, CallEvent.inlining.injEq] at hd
    rcases hd with hd | rfl
    · obtain ⟨f, hf, ha⟩ := hm d.1 g hg
      obtain ⟨hlt, hex⟩ := h.gone d hd f hf
      exact ⟨UInt32.lt_of_lt_of_le hlt ha.nextOp, fun ho => hex (ha.old d.2 ho hlt)⟩
    · exact ⟨(hr.ages hm).known g hg, fun ho => absurd ho (hgone g hg)⟩
  · exact absurd (hq ▸ hd) not_mem_nil

theorem inlineOne_meets (h : History log s) (hq : s.queue = []) (hr : Ready log s.module (k, op)) :
    (inlineOne s k op touched).Meets log fun y log' => History log' y.1 ∧ y.1.queue = [] ∧
      ∀ c, c ≠ (k, op) → Ready log s.module c → Ready log' y.1.module c := by
  refine meets_note_bind ?_
  cases hrefused : isRefused s.module k op with
  | true =>
    refine meets_note_bind ⟨?_, fun y ht => ?_⟩
    · rw [lift, append_nil]
      exact (history_refused h hq hr).allowed
    · obtain ⟨t, l⟩ := y
      rw [lift, append_nil]
      rcases inlineOne_eq_ok ht with ⟨-, rfl, -⟩ | ⟨-, -, -, -, -, -, -, -, -, ⟨r, hcall⟩, -⟩
      · refine ⟨history_refused h hq hr, hq, fun c hne hc => ⟨fun hmem => hc.untried ?_, hc.known⟩⟩
        simpa [hne] using hmem
      · rw [isRefused, hcall] at hrefused
        cases hrefused
  | false =>
    refine ⟨?_, fun y ht => ?_⟩
    · exact (append_nil _).symm ▸ allowed_inlining h.toTally hr.untried
    · obtain ⟨t, l⟩ := y
      obtain ⟨hturns, hdone⟩ := inlineOne_turns (K := fun _ => True) (P := fun _ => True) h.counted
        trivial ht
      obtain ⟨hgone, cs, hteq⟩ := hdone hrefused
      have hages := hturns.ages h.counted
      have hhistory : History (log ++ [.inlining (k, op)]) t := by
        rw [hteq]
        exact history_inlined h hq hr hages hgone
      have hqueue : t.queue = [] := hteq ▸ hq
      refine ⟨(append_nil _).symm ▸ hhistory, hqueue, fun c hne hc => ?_⟩
      refine ⟨fun hmem => hc.untried ?_, (hc.ages hages).known⟩
      simpa [hne, lift] using hmem

theorem inlineEach_meets {calls : List (FuncId × OpId)} (h : History log s) (hq : s.queue = [])
    (hn : calls.Nodup) (hr : ∀ c ∈ calls, Ready log s.module c) :
    (inlineEach calls s touched).Meets log fun y log' => History log' y.1 := by
  induction calls generalizing log s touched with
  | nil => exact meets_pure h.allowed h
  | cons c calls ih =>
    obtain ⟨k, op⟩ := c
    obtain ⟨hc, hcalls⟩ := forall_mem_cons.mp hr
    obtain ⟨hne, hn⟩ := nodup_cons.mp hn
    refine (inlineOne_meets h hq hc).bind fun y log₁ h => ?_
    obtain ⟨s₁, touched₁⟩ := y
    obtain ⟨h₁, hq₁, hready⟩ := h
    exact ih h₁ hq₁ hn fun c hc => hready c (fun he => hne (he ▸ hc)) (hcalls c hc)

theorem loop_meets {n : Nat} (h : History log s) :
    (loop n s).Meets log fun y log' => Tally log' y.1 := by
  induction n generalizing log s with
  | zero => exact meets_pure h.allowed ⟨h.allowed, h.refused, h.excluded, h.distinct, h.failed, h.tried⟩
  | succ n ih =>
    unfold loop
    split
    · exact meets_pure h.allowed h.toTally
    · have hempty : History log { s with queue := [] } :=
        ⟨⟨h.allowed, h.refused, h.excluded, h.distinct, h.failed, h.tried⟩, h.counted, h.gone,
          nodup_nil, fun _ hc => absurd hc not_mem_nil⟩
      refine (inlineEach_meets hempty rfl (nodup_reverse.mpr h.queue) fun c hc =>
        h.waiting c (mem_reverse.mp hc)).bind fun y log₁ h₁ => ?_
      obtain ⟨s₁, touched⟩ := y
      refine meets_lift_bind h₁.allowed fun y hs => ?_
      obtain ⟨s₂, e⟩ := y
      obtain ⟨hcalm, -⟩ := (steady_calm h₁.counted).mergeEach (l := [])
        ⟨h₁.counted.ages, rfl, rfl, rfl, rfl⟩ (fun _ _ => trivial) hs
      have h₂ := (h₁.calm hcalm).history
      cases e with
      | some e => exact meets_pure h₂.allowed h₂.toTally
      | none =>
        refine (fuseCandidates_meets h₂).bind fun y log₃ h₃ => ?_
        obtain ⟨s₃, e⟩ := y
        cases e with
        | some e => exact meets_pure h₃.allowed h₃.toTally
        | none =>
          exact ih ⟨⟨h₃.allowed, h₃.refused, h₃.excluded, h₃.distinct, h₃.failed, h₃.tried⟩,
            h₃.counted, h₃.gone, h₃.queue, h₃.waiting⟩

theorem run_meets (h : History log s) : (run s).Meets log fun y log' => Tally log' y.1 := by
  refine (fuseCandidates_meets h).bind fun y log₁ h₁ => ?_
  obtain ⟨s₁, e⟩ := y
  cases e with
  | some e => exact meets_pure h₁.allowed h₁.toTally
  | none =>
    refine (loop_meets h₁).bind fun y log₂ h₂ => ?_
    obtain ⟨s₂, e⟩ := y
    cases e with
    | some e => exact meets_pure h₂.allowed h₂
    | none =>
      have hend : Tally log₂ { s₂ with module := removeDead s₂.module s₂.callers }.removeCallees :=
        ⟨h₂.allowed, h₂.refused, h₂.excluded, h₂.distinct, h₂.failed, h₂.tried⟩
      exact meets_pure h₂.allowed hend

end Recorded

theorem Recorded.run_start_meets (h : m.Counted) (settings : Settings) :
    (Recorded.run (start settings m)).Meets [] fun y log' => Tally log' y.1 :=
  Recorded.run_meets ⟨⟨.nil, fun c => by simp [start], fun _ hc => absurd hc not_mem_nil,
    nodup_nil, rfl, rfl⟩, h, fun _ hc => absurd hc not_mem_nil, nodup_nil,
    fun _ hc => absurd hc not_mem_nil⟩

/-- Over all rounds no call is inlined twice, a call that could not be inlined is not made part of a
site later on, and in the end as many calls have failed as are excluded. -/
theorem calls_tried_once (h : m.Counted) (settings : Settings) :
    (Recorded.run (start settings m)).result = (start settings m).run ∧
    ((Recorded.run (start settings m)).events.filterMap CallEvent.inlined?).Nodup ∧
    (∀ before c after,
      (Recorded.run (start settings m)).events = before ++ CallEvent.refused c :: after →
        ∀ x ∈ after, c ∉ x.fused) ∧
    ∀ t e, (start settings m).run = .ok (t, e) →
      t.excluded.Nodup ∧ t.count.failed = t.excluded.length ∧
      (∀ c, c ∈ t.excluded ↔ .refused c ∈ (Recorded.run (start settings m)).events) ∧
      ((Recorded.run (start settings m)).events.filterMap CallEvent.inlined?).length =
        t.count.inlined + t.count.failed := by
  obtain ⟨hallowed, htally⟩ := Recorded.run_start_meets h settings
  rw [nil_append] at hallowed htally
  refine ⟨Recorded.result_run _, ?_, fun before c after he x hx => ?_, fun t e hs => ?_⟩
  · refine pairwise_filterMap.mpr (hallowed.imp fun {x y} hxy c hc d hd => ?_)
    rintro rfl
    exact hxy.1 c (CallEvent.inlined?_eq_some.mp hc) (CallEvent.inlined?_eq_some.mp hd)
  · rw [he] at hallowed
    have hafter := (pairwise_append.mp hallowed).2.1
    exact ((pairwise_cons.mp hafter).1 x hx).2 c rfl
  · have ht := htally (t, e) ((Recorded.result_run _).trans hs)
    exact ⟨ht.distinct, ht.failed, fun c => (ht.refused c).symm, ht.tried⟩

/-- A function with two calls of one callee, which become one, and a call that does not fit its
callee. -/
def errands : Module where
  name := "errands"
  functions := .ofList [
    (⟨0⟩, { Function.create ⟨0⟩ "walk" [("x", .i64)] .i64 with
      graph := ⟨.ofList [
        (⟨0⟩, ⟨⟨0⟩, none, [], [], .plain ⟨0⟩ (.ret (some (.reg ⟨0⟩)))⟩)], ⟨0⟩, 1, 1⟩ }),
    (⟨1⟩, { Function.create ⟨1⟩ "shop" [("x", .i64)] .i64 with
      nextReg := 3
      graph := ⟨.ofList [
        (⟨0⟩, ⟨⟨0⟩, none, [],
          [.plain ⟨0⟩ (.call (some ⟨1⟩) ⟨0⟩ []),
            .plain ⟨1⟩ (.call (some ⟨2⟩) ⟨0⟩ [.reg ⟨0⟩])],
          .plain ⟨2⟩ (.ret (some (.reg ⟨2⟩)))⟩)], ⟨0⟩, 1, 3⟩ }),
    (⟨2⟩, { Function.create ⟨2⟩ "main" [("n", .i64)] .i64 with
      nextReg := 3
      graph := ⟨.ofList [
        (⟨0⟩, ⟨⟨0⟩, none, [],
          [.plain ⟨0⟩ (.call (some ⟨1⟩) ⟨1⟩ [.reg ⟨0⟩]),
            .plain ⟨1⟩ (.call (some ⟨2⟩) ⟨1⟩ [.reg ⟨1⟩])],
          .plain ⟨2⟩ (.ret (some (.reg ⟨2⟩)))⟩)], ⟨0⟩, 1, 3⟩ })]
  globals := .empty
  nextFunction := 3
  nextGlobal := 0

theorem errands_tried_once : errands.Counted ∧
    ((Recorded.run (start .default errands)).events.filterMap CallEvent.inlined?).length = 5 ∧
    ((Recorded.run (start .default errands)).events.filterMap CallEvent.inlined?).Nodup ∧
    ∃ t e, (start .default errands).run = .ok (t, e) ∧ t.excluded.length = 2 ∧ t.count.failed = 2 := by
  have h : errands.Counted := by decide +kernel
  have htried : ((Recorded.run (start .default errands)).events.filterMap
      CallEvent.inlined?).length = 5 := by decide +kernel
  have hexcluded : (start .default errands).run.toOption.map (fun x => x.1.excluded.length) =
      some 2 := by decide +kernel
  obtain ⟨-, hnodup, -, hend⟩ := calls_tried_once h .default
  cases hs : (start .default errands).run with
  | error a =>
    rw [hs] at hexcluded
    cases hexcluded
  | ok x =>
    rw [hs] at hexcluded
    obtain ⟨-, hfailed, -⟩ := hend x.1 x.2 hs
    have hlength : x.1.excluded.length = 2 := Option.some.inj hexcluded
    exact ⟨h, htried, hnodup, x.1, x.2, rfl, hlength, hfailed.trans hlength⟩

end Rounds

end SiteFusion
