import SiteFusion.Proofs.ExhaustedCounters
import SiteFusion.Proofs.FusedBlocks
import SiteFusion.Proofs.ValidInlining
import SiteFusion.Proofs.ValidSpills

namespace SiteFusion

open List

theorem Function.mem_defs {f : Function} {r : Reg} : r ∈ f.defs ↔ f.isParam r = true ∨
    ∃ k b, f.graph.block? k = some b ∧ r ∈ b.defs := by
  rw [Function.defs, mem_append, Spill.mem_params_iff, mem_flatMap]
  refine or_congr Iff.rfl ⟨?_, ?_⟩
  · rintro ⟨b, hb, hr⟩
    obtain ⟨k, hk⟩ := Table.mem_values_iff.mp hb
    exact ⟨k, b, hk, hr⟩
  · rintro ⟨k, b, hb, hr⟩
    exact ⟨b, Table.mem_values_iff.mpr ⟨k, hb⟩, hr⟩

namespace Site

open Spill

variable {m : Module} {f g : Function} {free : Reg → Prop} {o : Operation Instruction}
  {target pred tail k : BlockId} {b : Block} {block trap : BlockId}
  {ends : List (BlockId × BlockId)} {os : List (Operation Instruction)} {r : Reg}

theorem mem_defs_of_visible {before : List Reg} (h : f.proc.Visible k before r)
    (hb : f.graph.block? k = some b) (hbefore : before ⊆ b.defs) : r ∈ f.defs := by
  cases h with
  | param h => exact mem_append_left _ h
  | here h => exact (defs_sublist_of_block hb).subset (hbefore h)
  | above _ hc hr _ =>
    obtain ⟨b', hb', rfl⟩ := Function.code_eq_some.mp hc
    rw [Block.defs_code] at hr
    exact (defs_sublist_of_block hb').subset hr

theorem mendable_of_valid (h : f.Valid m) (hn : f.Numbered) (hfirst : AllocatesFirst f) :
    Mendable m (fun _ => False) f := by
  have hcode : ∀ {k b}, f.graph.block? k = some b → f.proc.code k = some b.code :=
    fun hb => Function.code_eq_some.mpr ⟨_, hb, rfl⟩
  have hbody : ∀ {k b}, f.graph.block? k = some b → ∀ {pre o post},
      b.instructions = pre ++ o :: post → ∀ r ∈ o.kind.uses,
        f.proc.Visible k ((b.phis.map fun p => p.kind.dest) ++ dests pre) r := by
    intro k b hb pre o post hsplit r hr
    have hmap : b.code.body = pre.map Operation.kind ++ o.kind :: post.map Operation.kind := by
      simp [Block.code, hsplit]
    have hv := h.scopes.body (hcode hb) hmap r hr
    rwa [filterMap_map, show b.code.phis.map Phi.dest = b.phis.map fun p => p.kind.dest from
      List.map_map] at hv
  refine ⟨Function.isSome_code.mp h.connected.entry, fun {k b} hb => ?_⟩
  constructor
  case edges =>
    intro t ht
    have he : f.proc.Edge k t := ⟨_, hcode hb, ht⟩
    refine ⟨?_, Function.isSome_code.mp (h.connected.target he)⟩
    rintro rfl
    exact h.connected.root k he
  case known =>
    intro r hr
    refine .inl ?_
    rcases mem_append.mp hr with hr | hr
    · rcases mem_append.mp hr with hr | hr
      · obtain ⟨p, hp, hr⟩ := mem_flatMap.mp hr
        obtain ⟨⟨a, v⟩, ha, hv⟩ := mem_filterMap.mp hr
        have hv : v = .reg r := by
          cases v with
          | const c => cases hv
          | reg r' => cases hv; rfl
        subst hv
        have hp' : p.kind ∈ b.code.phis := List.mem_map_of_mem hp
        obtain ⟨c, hc, -⟩ := (h.connected.source (hcode hb) _ hp' a).mp
          (List.mem_map.mpr ⟨_, ha, rfl⟩)
        obtain ⟨s, hs, rfl⟩ := Function.code_eq_some.mp hc
        refine mem_defs_of_visible (h.scopes.incoming (hcode hb) _ hp' ha hc) hs ?_
        rw [Block.defs_code]
        exact fun _ hx => hx
      · obtain ⟨o, ho, hr⟩ := mem_flatMap.mp hr
        obtain ⟨pre, post, hsplit⟩ := append_of_mem ho
        refine mem_defs_of_visible (hbody hb hsplit r hr) hb (append_subset_append ?_)
        change dests pre ⊆ dests b.instructions
        rw [hsplit, dests_append]
        exact subset_append_left _ _
    · refine mem_defs_of_visible (h.scopes.exit (hcode hb) r hr) hb ?_
      rw [Block.defs_code]
      exact fun _ hx => hx
  case order =>
    intro pre o post hsplit r hr hlater
    have hdefs : b.defs = ((b.phis.map fun p => p.kind.dest) ++ dests pre) ++ dests (o :: post) := by
      rw [Block.defs, hsplit, filterMap_append, append_assoc]
      rfl
    have hmem : r ∈ b.defs := hdefs ▸ mem_append_right _ hlater
    have hnodup := h.defs.sublist (defs_sublist_of_block hb)
    cases hbody hb hsplit r hr with
    | param hp =>
      refine (nodup_append.mp h.defs).2.2 r hp r ?_ rfl
      exact Table.mem_flatMap_values.mpr ⟨k, b, hb, hmem⟩
    | here hh =>
      rw [hdefs] at hnodup
      exact (nodup_append.mp hnodup).2.2 r hh r hlater rfl
    | above hne hc hr' _ =>
      obtain ⟨s, hs, rfl⟩ := Function.code_eq_some.mp hc
      rw [Block.defs_code] at hr'
      exact hne (key_of_mem_defs hn hs hb hr' hmem)
  case led => exact (hfirst k b hb).1
  case phis => exact fun hk => (hfirst k b hb).2 (of_decide_eq_true hk)
  case calls =>
    intro o ho dest callee args hk
    exact h.calls (hcode hb) (hk ▸ List.mem_map_of_mem ho)
  case returns => exact h.returns (hcode hb)

theorem isParam_of_header (h : g.header = f.header) (r : Reg) : g.isParam r = f.isParam r := by
  rw [Function.isParam, Function.isParam, show g.signature = f.signature from
    congrArg Header.signature h]

theorem returnsValue_of_header (h : g.header = f.header) : g.returnsValue = f.returnsValue := by
  rw [Function.returnsValue, Function.returnsValue, show g.signature = f.signature from
    congrArg Header.signature h]

section

variable {there : BlockId → Prop} {known : Reg → Prop} {first value : Bool}

theorem mends_of_isTrap (hdead : b.isTrap = true) : Mends m there known first value b := by
  obtain ⟨hphis, hempty, hexit⟩ := isTrap_iff.mp hdead
  constructor
  case edges =>
    rw [Block.successors, hexit]
    exact fun _ ht => absurd ht not_mem_nil
  case known =>
    rw [Block.uses, hphis, hempty, hexit]
    exact fun _ hr => absurd hr not_mem_nil
  case order =>
    intro pre o post hsplit
    rw [hempty] at hsplit
    exact absurd hsplit (by simp)
  case led =>
    rw [hempty]
    exact Led.weaken (by simp [Led]) _
  case phis => exact fun _ => hphis
  case calls =>
    rw [hempty]
    exact fun _ ho => absurd ho not_mem_nil
  case returns =>
    intro v hv
    rw [hexit] at hv
    cases hv

theorem mends_follow (h : Mends m there known first value b) (s : Block) :
    Mends m there known first value (follow s pred tail k b) := by
  constructor
  case edges =>
    rw [Block.successors, follow_terminator]
    exact h.edges
  case known =>
    rw [follow_uses]
    exact h.known
  case order =>
    intro pre o post
    rw [follow_instructions]
    exact h.order
  case led =>
    rw [follow_instructions]
    exact h.led
  case phis => exact fun hf => follow_phis_nil (h.phis hf)
  case calls =>
    rw [follow_instructions]
    exact h.calls
  case returns =>
    intro v
    rw [follow_terminator]
    exact h.returns

variable {before after : List (Operation Instruction)}

theorem mends_before (h : Mends m there known first value b)
    (hsplit : b.instructions = before ++ o :: after) (ho : o.kind.isAlloca = false)
    (ht : there target) (branch : OpId) : Mends m there known first value { b with
      instructions := before
      terminator := ⟨branch, .branch target, .empty⟩ } := by
  constructor
  case edges =>
    intro t hbt
    cases mem_singleton.mp hbt
    exact ht
  case known =>
    intro r hr
    refine h.known r ?_
    rw [Block.uses, mem_append, mem_append] at hr
    rcases hr with (hr | hr) | hr
    · exact mem_append_left _ (mem_append_left _ hr)
    · refine mem_append_left _ (mem_append_right _ ?_)
      rw [hsplit, flatMap_append]
      exact mem_append_left _ hr
    · cases hr
  case order =>
    intro pre p post hinsts r hr hlater
    change before = pre ++ p :: post at hinsts
    have hall : b.instructions = pre ++ p :: (post ++ o :: after) := by
      rw [hsplit, hinsts]
      simp
    refine h.order hall r hr ?_
    rw [← cons_append, dests_append]
    exact mem_append_left _ hlater
  case led => exact ((hsplit ▸ h.led).split ho).1
  case phis => exact h.phis
  case calls => exact fun p hp => h.calls p (hsplit ▸ mem_append_left _ hp)
  case returns =>
    intro v hv
    cases hv

theorem mends_after (h : Mends m there known first value b)
    (hsplit : b.instructions = before ++ o :: after) (ho : o.kind.isAlloca = false)
    (tail : BlockId) :
    Mends m there known false value ⟨tail, none, [], after, b.terminator⟩ := by
  constructor
  case edges => exact h.edges
  case known =>
    intro r hr
    refine h.known r ?_
    rw [Block.uses, mem_append, mem_append] at hr
    rcases hr with (hr | hr) | hr
    · cases hr
    · refine mem_append_left _ (mem_append_right _ ?_)
      rw [hsplit, flatMap_append, flatMap_cons]
      exact mem_append_right _ (mem_append_right _ hr)
    · exact mem_append_right _ hr
  case order =>
    intro pre p post hinsts
    change after = pre ++ p :: post at hinsts
    have hall : b.instructions = (before ++ o :: pre) ++ p :: post := by
      rw [hsplit, hinsts]
      simp
    exact h.order hall
  case led => exact ((hsplit ▸ h.led).split ho).2
  case phis => exact fun hf => absurd hf Bool.false_ne_true
  case calls =>
    exact fun p hp => h.calls p (hsplit ▸ mem_append_right _ (mem_cons_of_mem _ hp))
  case returns => exact h.returns

end

theorem Prepared.mem_defs (hp : Prepared f block trap g) (hr : r ∈ f.defs) : r ∈ g.defs := by
  rw [Function.mem_defs] at hr ⊢
  refine hr.imp (fun h => (isParam_of_header hp.header r).trans h) ?_
  rintro ⟨k, b, hb, hr⟩
  rcases hp.blocks k with hk | ⟨hnone, -⟩
  · exact ⟨k, b, hk.trans hb, hr⟩
  · rw [hnone] at hb
    cases hb

theorem Prepared.mendable (hp : Prepared f block trap g) (h : Mendable m free f) :
    Mendable m free g := by
  have hentry : g.graph.entry = f.graph.entry := congrArg Header.entry hp.header
  have hsome : ∀ k, (f.graph.block? k).isSome → (g.graph.block? k).isSome := by
    intro k hk
    rcases hp.blocks k with hb | ⟨-, b, hb, -⟩
    · rwa [hb]
    · rw [hb]
      rfl
  refine ⟨hsome _ (hentry ▸ h.entry), fun {k b} hb => ?_⟩
  rcases hp.blocks k with hk | ⟨-, b', hb', hdead, -⟩
  · rw [hentry, returnsValue_of_header hp.header]
    exact (h.block (hk.symm.trans hb)).mono (fun t ht => ⟨ht.1, hsome t ht.2⟩)
      fun r hr => hr.imp_left hp.mem_defs
  · rw [hb] at hb'
    cases hb'
    exact mends_of_isTrap hdead

theorem Cut.mem_defs (hc : Cut f o target pred tail g) (hr : r ∈ f.defs) :
    r ∈ g.defs ∨ o.kind.dest? = some r := by
  obtain ⟨s, before, after, branch, hs, hsplit, hblocks⟩ := hc.blocks
  have hne : tail ≠ pred := by
    rintro rfl
    rw [hc.fresh] at hs
    cases hs
  rw [Function.mem_defs] at hr ⊢
  rcases hr with hr | ⟨k, b, hb, hr⟩
  · exact .inl (.inl ((isParam_of_header hc.header r).trans hr))
  · by_cases hk : k = pred
    · subst hk
      rw [hs] at hb
      cases hb
      have hpred := (hblocks k).trans (congrArg _ (if_pos rfl))
      have htail := (hblocks tail).trans (congrArg _ ((if_neg hne).trans (if_pos rfl)))
      rw [Block.defs, hsplit, filterMap_append, mem_append, mem_append] at hr
      rcases hr with hr | hr | hr
      · exact .inl (.inr ⟨k, _, hpred, by rw [follow_defs]; exact mem_append_left _ hr⟩)
      · exact .inl (.inr ⟨k, _, hpred, by rw [follow_defs]; exact mem_append_right _ hr⟩)
      · change r ∈ dests (o :: after) at hr
        rw [dests_cons, mem_append] at hr
        rcases hr with hr | hr
        · exact .inr (by simpa using hr)
        · exact .inl (.inr ⟨tail, _, htail, by rw [follow_defs]; exact mem_append_right _ hr⟩)
    · have hkt : k ≠ tail := by
        rintro rfl
        rw [hc.fresh] at hb
        cases hb
      refine .inl (.inr ⟨k, _, (hblocks k).trans (congrArg _ ((if_neg hk).trans ((if_neg hkt).trans
        hb))), ?_⟩)
      rwa [follow_defs]

theorem Cut.mendable (hc : Cut f o target pred tail g) (h : Mendable m free f)
    (ho : o.kind.isAlloca = false)
    (ht : target ≠ f.graph.entry ∧ (f.graph.block? target).isSome) :
    Mendable m (fun r => o.kind.dest? = some r ∨ free r) g := by
  have hentry := hc.entry_eq
  have htail : tail ≠ f.graph.entry := by
    rintro rfl
    have he := h.entry
    rw [hc.fresh] at he
    cases he
  have hknown : ∀ r, r ∈ f.defs ∨ free r → r ∈ g.defs ∨ o.kind.dest? = some r ∨ free r := by
    rintro r (hr | hr)
    · exact (hc.mem_defs hr).imp_right .inl
    · exact .inr (.inr hr)
  refine ⟨hentry ▸ hc.isSome_block h.entry, fun {k b} hb => ?_⟩
  rw [hentry, returnsValue_of_header hc.header]
  have hthere : ∀ t, t ≠ f.graph.entry ∧ (f.graph.block? t).isSome →
      t ≠ f.graph.entry ∧ (g.graph.block? t).isSome := fun t ht => ⟨ht.1, hc.isSome_block ht.2⟩
  rcases hc.cases_block hb with ⟨s, before, after, branch, hs, hsplit, ⟨rfl, rfl⟩ | ⟨rfl, rfl⟩⟩ |
    ⟨-, -, s, b₀, hb₀, rfl⟩
  · exact mends_follow ((mends_before (h.block hs) hsplit ho ht branch).mono hthere hknown) s
  · rw [decide_eq_false htail]
    exact (mends_after (h.block hs) hsplit ho k).mono hthere hknown
  · exact mends_follow ((h.block hb₀).mono hthere hknown) s

theorem CutAll.mendable (hc : CutAll target f os ends g) (h : Mendable m free f)
    (ho : ∀ o ∈ os, o.kind.isAlloca = false)
    (ht : target ≠ f.graph.entry ∧ (f.graph.block? target).isSome) :
    Mendable m (fun r => r ∈ dests os ∨ free r) g := by
  induction hc generalizing free with
  | nil => simpa [dests] using h
  | @cons f f₁ g o os pred tail ends hcut _ ih =>
    rw [forall_mem_cons] at ho
    have hnext := ih (hcut.mendable h ho.1 ht) ho.2
      ⟨hcut.entry_eq ▸ ht.1, hcut.isSome_block ht.2⟩
    have hfree : (fun r => r ∈ dests os ∨ o.kind.dest? = some r ∨ free r) =
        fun r => r ∈ dests (o :: os) ∨ free r := by
      funext r
      rw [dests_cons, mem_append, Option.mem_toList, ← or_assoc]
      exact propext (or_congr or_comm Iff.rfl)
    exact hfree ▸ hnext

theorem CutAll.mem_defs (hc : CutAll target f os ends g) (hr : r ∈ f.defs) :
    r ∈ g.defs ∨ r ∈ dests os := by
  induction hc with
  | nil => exact .inl hr
  | cons h _ ih =>
    rw [dests_cons, mem_append, Option.mem_toList]
    rcases h.mem_defs hr with hr | hr
    · exact (ih hr).imp_right .inr
    · exact .inr (.inl hr)

section

variable {p : Parts} {block trap : BlockId} {callee : FuncId} {t : Function} {ordinal : UInt64}
  {fused : List Fused} {ends : List (BlockId × BlockId)} {os : List (Operation Instruction)}
  {b : Block} {r : Reg}

theorem Parts.allocate_instructions (p : Parts) (b : Block) : (p.allocate b).instructions =
    (b.instructions.takeWhile fun o => o.kind.isAlloca) ++ (p.result.map Outcome.alloca).toList ++
      b.instructions.dropWhile fun o => o.kind.isAlloca := by
  unfold Parts.allocate
  split
  · next hnone => simp [hnone]
  · next r hsome =>
    rw [hsome, Block.insertAt, b.take_allocaCount, b.drop_allocaCount]
    simp

theorem Parts.mem_allocate (ho : o ∈ (p.allocate b).instructions) :
    o ∈ b.instructions ∨ ∃ r, p.result = some r ∧ o = r.alloca := by
  rw [Parts.allocate_instructions, mem_append, mem_append] at ho
  rcases ho with (ho | ho) | ho
  · exact .inl (( takeWhile_prefix _).subset ho)
  · cases hr : p.result with
    | none => simp [hr] at ho
    | some r => exact .inr ⟨r, rfl, by simpa [hr] using ho⟩
  · exact .inl ((dropWhile_suffix _).subset ho)

theorem Parts.sublist_allocate (p : Parts) (b : Block) :
    b.instructions.Sublist (p.allocate b).instructions := by
  rw [Parts.allocate_instructions]
  conv_lhs => rw [← takeWhile_append_dropWhile (p := fun o : Operation Instruction =>
    o.kind.isAlloca) (l := b.instructions)]
  exact (sublist_append_left _ _).append (List.Sublist.refl _)

theorem exists_split_of_unread {as rest pre post : List (Operation Instruction)}
    (has : ∀ a ∈ as, r ∉ a.kind.uses) (h : as ++ rest = pre ++ o :: post) (hr : r ∈ o.kind.uses) :
    ∃ mid, rest = mid ++ o :: post := by
  induction as generalizing pre with
  | nil => exact ⟨pre, h⟩
  | cons a as ih =>
    cases pre with
    | nil =>
      rw [nil_append, cons_append, List.cons.injEq] at h
      exact absurd hr (h.1 ▸ has a (by simp))
    | cons c pre =>
      rw [cons_append, cons_append, List.cons.injEq] at h
      exact ih (fun x hx => has x (mem_cons_of_mem _ hx)) h.2

theorem Filled.mem_defs (h : Filled f p block t ordinal fused ends g)
    (hblank : ∃ b, f.graph.block? block = some b ∧ b.isTrap = true) (hr : r ∈ f.defs) :
    r ∈ g.defs := by
  obtain ⟨loads, -, hblocks⟩ := h.blocks
  rw [Function.mem_defs] at hr ⊢
  refine hr.imp (fun hp => (isParam_of_header h.frame.header r).trans hp) ?_
  rintro ⟨k, b, hb, hr⟩
  have hk : k ≠ block := by
    rintro rfl
    obtain ⟨b', hb', hdead⟩ := hblank
    rw [hb] at hb'
    cases hb'
    obtain ⟨hphis, hempty, -⟩ := isTrap_iff.mp hdead
    rw [Block.defs, hphis, hempty] at hr
    cases hr
  refine ⟨k, _, (hblocks k).trans (congrArg _ hb), ?_⟩
  have hsub : b.instructions.Sublist (p.place f.graph.entry block k b).instructions := by
    rw [Parts.place, if_neg hk]
    split
    · exact p.sublist_allocate b
    · exact List.Sublist.refl _
  have hphis : (p.place f.graph.entry block k b).phis = b.phis := by
    rw [Parts.place, if_neg hk]
    unfold Parts.allocate
    split
    · split <;> rfl
    · rfl
  rw [Block.defs, hphis]
  rcases mem_append.mp hr with hr | hr
  · exact mem_append_left _ hr
  · refine mem_append_right _ ?_
    rw [filterMap_append]
    exact mem_append_right _ ((hsub.filterMap _).subset hr)

theorem mem_rest {entry : BlockId}
    (ho : o ∈ if k = entry then (p.allocate b).instructions else b.instructions) :
    o ∈ b.instructions ∨ ∃ r, p.result = some r ∧ o = r.alloca := by
  split at ho
  · exact Parts.mem_allocate ho
  · exact .inl ho

namespace Parts.Works

variable {floor : UInt32} {b : Block} {entry : BlockId} {post pre : List (Operation Instruction)}
  {r : Reg}

theorem mem_fill (hw : p.Works floor callee t ordinal trap fused ends)
    (ho : o ∈ (p.fill b).instructions) :
    o.kind = .marker ∨ o.kind = .call (p.result.map Outcome.reg) callee
        (p.inputs.map fun q => .reg q.kind.dest) ∨
      ∃ r, p.result = some r ∧ o.kind = .store (.reg r.slot) (.reg r.reg) := by
  simp only [Parts.fill, mem_append, mem_cons, Option.mem_toList, not_mem_nil,
    or_false] at ho
  rcases ho with (rfl | rfl | ho) | rfl
  · exact .inl (Operation.told_eq.mp hw.start).1
  · exact .inr (.inl (Operation.told_eq.mp hw.call).1)
  · obtain ⟨r, hr, rfl⟩ := Option.map_eq_some_iff.mp ho
    exact .inr (.inr ⟨r, hr, (Operation.told_eq.mp (hw.result r hr).2.2.2).1⟩)
  · exact .inl (Operation.told_eq.mp hw.finish).1

theorem reg_mem_dests (hw : p.Works floor callee t ordinal trap fused ends) {r : Outcome}
    (hr : p.result = some r) : r.reg ∈ dests (p.fill b).instructions := by
  refine mem_filterMap.mpr ⟨p.call, by simp [Parts.fill], ?_⟩
  rw [(Operation.told_eq.mp hw.call).1, hr]
  rfl

theorem uses_call {i : Instruction}
    (hi : i = .call (p.result.map Outcome.reg) callee (p.inputs.map fun q => .reg q.kind.dest))
    (hr : r ∈ i.uses) : r ∈ (p.fill b).phis.map fun q => q.kind.dest := by
  subst hi
  simp only [Instruction.uses, Instruction.operands, filterMap_map, mem_filterMap,
    Function.comp_apply] at hr
  obtain ⟨q, hq, hr⟩ := hr
  cases hr
  exact List.mem_map.mpr ⟨q, mem_cons_of_mem _ hq, rfl⟩

theorem mem_uses (hw : p.Works floor callee t ordinal trap fused ends) (hr : r ∈ (p.fill b).uses) :
    (∃ c ∈ fused, .reg r ∈ c.args) ∨ r ∈ (p.fill b).defs ∨
      ∃ out, p.result = some out ∧ r = out.slot := by
  rw [Block.uses, mem_append, mem_append] at hr
  rcases hr with (hr | hr) | hr
  · obtain ⟨q, hq, hr⟩ := mem_flatMap.mp hr
    obtain ⟨⟨a, v⟩, hv, hr⟩ := mem_filterMap.mp hr
    rcases mem_cons.mp hq with rfl | hq
    · rw [hw.caseIncoming] at hv
      obtain ⟨e, -, he⟩ := List.mem_map.mp hv
      cases he
      cases hr
    · obtain ⟨i, hi⟩ := mem_iff_getElem?.mp hq
      rw [(hw.inputs i q hi).2.2] at hv
      obtain ⟨⟨a', c⟩, hc, hv⟩ := mem_filterMap.mp hv
      obtain ⟨v', hv', he⟩ := Option.map_eq_some_iff.mp hv
      cases he
      refine .inl ⟨c, (of_mem_zip hc).2, ?_⟩
      cases v with
      | const => cases hr
      | reg r' =>
        cases hr
        exact mem_of_getElem? hv'
  · obtain ⟨o, ho, hr⟩ := mem_flatMap.mp hr
    rcases hw.mem_fill ho with hk | hk | ⟨out, hout, hk⟩
    · rw [hk] at hr
      cases hr
    · exact .inr (.inl (mem_append_left _ (uses_call hk hr)))
    · rw [hk] at hr
      simp only [Instruction.uses, Instruction.operands, filterMap_cons, Operand.reg?,
        filterMap_nil, mem_cons, not_mem_nil, or_false] at hr
      rcases hr with rfl | rfl
      · exact .inr (.inr ⟨out, hout, rfl⟩)
      · exact .inr (.inl (mem_append_right _ (hw.reg_mem_dests hout)))
  · rw [Parts.fill, (Operation.told_eq.mp hw.switch).1] at hr
    cases mem_singleton.mp hr
    exact .inr (.inl (by simp [Parts.fill, Block.defs]))

theorem order (hw : p.Works floor callee t ordinal trap fused ends) (hdefs : (p.fill b).defs.Nodup)
    (hslot : ∀ r, p.result = some r → r.slot ∉ (p.fill b).defs)
    (hsplit : (p.fill b).instructions = pre ++ o :: post) (hr : r ∈ o.kind.uses) :
    r ∉ dests (o :: post) := by
  have hapart := (nodup_append.mp hdefs).2.2
  have hlater : ∀ {x}, x ∈ dests (o :: post) → x ∈ dests (p.fill b).instructions := by
    intro x hx
    rw [hsplit, dests_append]
    exact mem_append_right _ hx
  rcases hw.mem_fill (hsplit ▸ by simp : o ∈ (p.fill b).instructions) with
    hk | hk | ⟨out, hout, hk⟩
  · rw [hk] at hr
    cases hr
  · exact fun hm => hapart r (uses_call hk hr) r (hlater hm) rfl
  · rw [hk] at hr
    simp only [Instruction.uses, Instruction.operands, filterMap_cons, Operand.reg?,
      filterMap_nil, mem_cons, not_mem_nil, or_false] at hr
    rcases hr with rfl | rfl
    · exact fun hm => hslot out hout (mem_append_right _ (hlater hm))
    · -- the store comes after the call, and only the end marker after the store
      have hunread : ∀ a ∈ [p.start, p.call], out.reg ∉ a.kind.uses := by
        intro a ha hm
        rcases mem_cons.mp ha with rfl | ha
        · rw [(Operation.told_eq.mp hw.start).1] at hm
          cases hm
        · cases mem_singleton.mp ha
          exact hapart _ (uses_call (Operation.told_eq.mp hw.call).1 hm) _
            (hw.reg_mem_dests hout) rfl
      have hrest : [p.start, p.call] ++ ([out.store] ++ [p.finish]) = pre ++ o :: post := by
        rw [← hsplit, Parts.fill, hout]
        rfl
      have hread : out.reg ∈ o.kind.uses := by
        rw [hk]
        simp [Instruction.uses, Instruction.operands, Operand.reg?]
      obtain ⟨mid, hmid⟩ := exists_split_of_unread hunread hrest hread
      have hnone : dests ([out.store] ++ [p.finish]) = [] := by
        simp [dests, (Operation.told_eq.mp (hw.result out hout).2.2.2).1,
          (Operation.told_eq.mp hw.finish).1, Instruction.dest?]
      rw [hmid, dests_append] at hnone
      rw [(append_eq_nil_iff.mp hnone).2]
      exact not_mem_nil

theorem mem_of_reads (hw : p.Works floor callee t ordinal trap fused ends)
    (ho : o ∈ if k = entry then (p.allocate b).instructions else b.instructions)
    (hr : r ∈ o.kind.uses) : o ∈ b.instructions := by
  rcases mem_rest ho with ho | ⟨out, hout, rfl⟩
  · exact ho
  · rw [(Operation.told_eq.mp (hw.result out hout).2.2.1).1] at hr
    cases hr

theorem exists_split (hw : p.Works floor callee t ordinal trap fused ends)
    (h : (if k = entry then (p.allocate b).instructions else b.instructions) = pre ++ o :: post)
    (hr : r ∈ o.kind.uses) : ∃ pre', b.instructions = pre' ++ o :: post := by
  split at h
  · rw [Parts.allocate_instructions] at h
    have hunread : ∀ a ∈ (b.instructions.takeWhile fun o => o.kind.isAlloca) ++
        (p.result.map Outcome.alloca).toList, r ∉ a.kind.uses := by
      intro a ha hm
      have hcell : a.kind.isAlloca = true := by
        rcases mem_append.mp ha with ha | ha
        · exact mem_takeWhile_imp (p := fun o : Operation Instruction => o.kind.isAlloca) ha
        · obtain ⟨out, hout, rfl⟩ := Option.map_eq_some_iff.mp (Option.mem_toList.mp ha)
          exact isAlloca_of_told (hw.result out hout).2.2.1
      rw [uses_of_isAlloca hcell] at hm
      cases hm
    obtain ⟨mid, hmid⟩ := exists_split_of_unread hunread h hr
    refine ⟨(b.instructions.takeWhile fun o => o.kind.isAlloca) ++ mid, ?_⟩
    rw [append_assoc, ← hmid, takeWhile_append_dropWhile]
  · exact ⟨pre, h⟩

theorem led_allocate (hw : p.Works floor callee t ordinal trap fused ends)
    (hb : Led true b.instructions) : Led true (p.allocate b).instructions := by
  unfold Parts.allocate
  split
  · exact hb
  · next out hout =>
    have hled := led_withSlot (l := b.id) (isAlloca_of_told (hw.result out hout).2.2.1) b.id
      (by simpa using hb)
    simpa [withSlot, Block.insertAt] using hled

end Parts.Works

/-- A function that can be mended, with calls cut out of it and a site in the place of `block`. -/
structure Staged (m : Module) (f : Function) (os : List (Operation Instruction)) (p : Parts)
    (block trap : BlockId) (t : Function) (ordinal : UInt64) (fused : List Fused)
    (ends : List (BlockId × BlockId)) (g : Function) : Prop where
  mendable : Mendable m (fun r => r ∈ dests os) f
  bound : ∀ r ∈ dests os, r.index < f.nextReg
  filled : Filled f p block t ordinal fused ends g
  apart : block ≠ f.graph.entry
  blank : ∃ b, f.graph.block? block = some b ∧ b.isTrap = true
  dead : ∃ b, f.graph.block? trap = some b ∧ b.isTrap = true
  ends : ∀ x ∈ ends, x.2 ≠ block ∧ x.2 ≠ f.graph.entry ∧ (f.graph.block? x.2).isSome

theorem Fuses.staged (hx : Fuses f callee t os fused ordinal block trap ends p g)
    (h : Mendable m (fun _ => False) f) (hn : f.Numbered)
    (hos : ∀ o ∈ os, o ∈ f.instructions ∧ o.kind.isAlloca = false) :
    ∃ f₂, Staged m f₂ os p block trap t ordinal fused ends g ∧ f₂.Numbered ∧
      f₂.header = f.header ∧ f₂.nextReg = f.nextReg ∧ f₂.trap = some trap ∧ trap ≠ block ∧
      ∀ r ∈ f.defs, r ∈ f₂.defs ∨ r ∈ dests os := by
  obtain ⟨f₁, f₂, hp, hc, hf⟩ := hx.steps
  obtain ⟨hn₂, hheader, htrap, hcounter⟩ := hc.frame hp.numbered
  have hentry₁ : f₁.graph.entry = f.graph.entry := congrArg Header.entry hp.header
  have hentry₂ : f₂.graph.entry = f₁.graph.entry := congrArg Header.entry hheader
  have hblock : block ≠ f₁.graph.entry := by
    rw [hentry₁]
    rintro rfl
    have he := h.entry
    rw [hp.fresh] at he
    cases he
  obtain ⟨blank, hblank, hempty⟩ := hp.there
  obtain ⟨dead, hdead, hempty'⟩ := hp.dead
  have hm₁ := hp.mendable h
  have hm₂ := hc.mendable hm₁ (fun o ho => (hos o ho).2) ⟨hblock, by rw [hblank]; rfl⟩
  simp only [or_false] at hm₂
  refine ⟨f₂, ⟨hm₂, fun r hr => ?_, hf, hentry₂ ▸ hblock,
    ⟨blank, hc.block?_of_isTrap hblank hempty, hempty⟩,
    ⟨dead, hc.block?_of_isTrap hdead hempty', hempty'⟩, fun x hx => ⟨?_, ?_, (hc.tails x hx).2⟩⟩,
    hn₂, hheader.trans hp.header, hcounter.trans hp.counter, htrap.trans hp.recorded, hp.apart,
    fun r hr => hc.mem_defs (hp.mem_defs hr)⟩
  · obtain ⟨o, ho, hr⟩ := mem_filterMap.mp hr
    obtain ⟨k, b, hb, hob⟩ := Function.mem_instructions.mp (hos o ho).1
    rw [hcounter, hp.counter]
    refine hn.defBound r ((defs_sublist_of_block hb).subset ?_)
    exact mem_append_right _ (mem_filterMap.mpr ⟨o, hob, hr⟩)
  · intro he
    have hnone := (hc.tails x hx).1
    rw [he, hblank] at hnone
    cases hnone
  · intro he
    have hnone := (hc.tails x hx).1
    rw [he, hentry₂] at hnone
    have hsome := hm₁.entry
    rw [hnone] at hsome
    cases hsome

namespace Staged

variable {b : Block} {loads : List (Operation Instruction)} {r : Outcome}

theorem slot_lt (h : Staged m f os p block trap t ordinal fused ends g) (hn : f.Numbered)
    (hw : p.Works f.nextReg callee t ordinal trap fused ends) (hr : p.result = some r)
    (hb : f.graph.block? k = some b) : r.slot ∉ b.uses := by
  intro hm
  have hlt : r.slot.index < f.nextReg := by
    rcases (h.mendable.block hb).known _ hm with hd | hd
    · exact hn.defBound _ hd
    · exact h.bound _ hd
  exact UInt32.lt_irrefl _ (UInt32.lt_of_lt_of_le hlt (hw.result r hr).2.1)

theorem slot_mem (h : Staged m f os p block trap t ordinal fused ends g)
    (hw : p.Works f.nextReg callee t ordinal trap fused ends) (hr : p.result = some r) :
    ∃ b, g.graph.block? g.graph.entry = some b ∧ r.alloca ∈ b.instructions ∧ r.slot ∈ b.defs := by
  obtain ⟨b, hb⟩ := Option.isSome_iff_exists.mp h.mendable.entry
  obtain ⟨loads, -, hblocks⟩ := h.filled.blocks
  rw [h.filled.frame.entry]
  refine ⟨_, (hblocks _).trans (congrArg _ hb), ?_⟩
  have hm : r.alloca ∈ (p.place f.graph.entry block f.graph.entry b).instructions := by
    rw [Parts.place, if_neg (Ne.symm h.apart), if_pos rfl, Parts.allocate_instructions, hr]
    simp
  refine ⟨mem_append_right _ hm, mem_append_right _ (mem_filterMap.mpr
    ⟨r.alloca, mem_append_right _ hm, ?_⟩)⟩
  rw [(Operation.told_eq.mp (hw.result r hr).2.2.1).1]
  rfl

theorem mem_defs (h : Staged m f os p block trap t ordinal fused ends g) {r : Reg}
    (hr : r ∈ f.defs ∨ r ∈ dests os)
    (hos : ∀ r ∈ dests os, p.result.isSome ∧
      ∃ tail, (some r, tail) ∈ (fused.map Fused.dest).zip (ends.map Prod.snd)) : r ∈ g.defs := by
  rcases hr with hr | hr
  · exact h.filled.mem_defs h.blank hr
  · obtain ⟨hsome, tail, hmem⟩ := hos r hr
    obtain ⟨out, hout⟩ := Option.isSome_iff_exists.mp hsome
    obtain ⟨e, he, rfl⟩ := Filled.mem_tails hmem
    obtain ⟨b, hb⟩ := Option.isSome_iff_exists.mp (h.ends e he).2.2
    obtain ⟨loads, hloads, hblocks⟩ := h.filled.blocks
    have hload : (Instruction.load r (.reg out.slot) t.signature.result,
        Role.result.tags t.name ordinal) ∈ (loads e.2).map Operation.told := by
      rw [hloads, loadsAt, hout]
      exact mem_reloadsAt.mpr ⟨r, hmem, rfl⟩
    obtain ⟨o, ho, htold⟩ := List.mem_map.mp hload
    refine Function.mem_defs.mpr (.inr ⟨e.2, _, (hblocks e.2).trans (congrArg _ hb),
      mem_append_right _ (mem_filterMap.mpr ⟨o, mem_append_left _ ho, ?_⟩)⟩)
    rw [(Operation.told_eq.mp htold).1]
    rfl

theorem told_loads {ty : Ty} {tags : Tags} {l : List (Option Reg × BlockId)}
    (h : loads.map Operation.told = loadsAt p ty tags l k) (ho : o ∈ loads) :
    ∃ r d, p.result = some r ∧ (some d, k) ∈ l ∧ o.told = (.load d (.reg r.slot) ty, tags) := by
  have hm : o.told ∈ loadsAt p ty tags l k := h ▸ List.mem_map_of_mem ho
  unfold loadsAt at hm
  split at hm
  · cases hm
  · next r hr =>
    obtain ⟨d, hd, htold⟩ := mem_reloadsAt.mp hm
    exact ⟨r, d, hr, hd, htold⟩

theorem loads_nil (h : Staged m f os p block trap t ordinal fused ends g)
    (hloads : loads.map Operation.told = loadsAt p t.signature.result
      (Role.result.tags t.name ordinal) ((fused.map Fused.dest).zip (ends.map Prod.snd)) k)
    (hk : k = f.graph.entry) : loads = [] := by
  rw [← map_eq_nil_iff (f := Operation.told), hloads]
  refine Filled.loadsAt_eq_nil fun x hx => ?_
  obtain ⟨e, he, hex⟩ := Filled.mem_tails hx
  rw [hk, ← hex]
  exact (h.ends e he).2.1

theorem mended (h : Staged m f os p block trap t ordinal fused ends g) (hn : f.Numbered)
    (hg : g.Numbered) (hw : p.Works f.nextReg callee t ordinal trap fused ends)
    (ht : m.function? callee = some t) (htrap : trap ≠ f.graph.entry)
    (hos : ∀ r ∈ dests os, p.result.isSome ∧
      ∃ tail, (some r, tail) ∈ (fused.map Fused.dest).zip (ends.map Prod.snd))
    (hargs : ∀ c ∈ fused, ∀ r, .reg r ∈ c.args → r ∈ f.defs ∨ r ∈ dests os) :
    Mendable m (fun _ => False) g := by
  have hentry := h.filled.frame.entry
  have hends := fun x hx => (h.ends x hx).1
  have hsome : ∀ k, (f.graph.block? k).isSome → (g.graph.block? k).isSome := by
    intro k hk
    obtain ⟨loads, -, hblocks⟩ := h.filled.blocks
    rw [hblocks, Option.isSome_map]
    exact hk
  have hslot : ∀ {out}, p.result = some out → out.slot ∈ g.defs := by
    intro out hout
    obtain ⟨b, hb, -, hm⟩ := h.slot_mem hw hout
    exact (defs_sublist_of_block hb).subset hm
  refine ⟨hsome _ (hentry ▸ h.mendable.entry), fun {k b'} hb' => ?_⟩
  rw [hentry, returnsValue_of_header h.filled.frame.header]
  obtain ⟨b, hb, ⟨rfl, rfl⟩ | ⟨hk, loads, hloads, rfl⟩⟩ := h.filled.cases_block hends hb'
  · rw [decide_eq_false h.apart]
    constructor
    case edges =>
      intro s hs
      rw [Block.successors, Parts.fill, (Operation.told_eq.mp hw.switch).1] at hs
      rcases mem_successors_numbered hs with hs | rfl
      · obtain ⟨x, hx, rfl⟩ := List.mem_map.mp hs
        exact ⟨(h.ends x hx).2.1, hsome _ (h.ends x hx).2.2⟩
      · obtain ⟨dead, hdead, -⟩ := h.dead
        exact ⟨htrap, hsome _ (by rw [hdead]; rfl)⟩
    case known =>
      intro r hr
      refine .inl ?_
      rcases hw.mem_uses hr with ⟨c, hc, hr⟩ | hr | ⟨out, hout, rfl⟩
      · exact h.mem_defs (hargs c hc r hr) hos
      · exact (defs_sublist_of_block hb').subset hr
      · exact hslot hout
    case order =>
      intro pre o post hsplit r hr hlater
      refine hw.order (hg.defOnce.sublist (defs_sublist_of_block hb')) (fun out hout hm => ?_)
        hsplit hr hlater
      obtain ⟨s, hs, -, hms⟩ := h.slot_mem hw hout
      exact h.apart ((key_of_mem_defs hg hb' hs hm hms).trans hentry)
    case led =>
      intro o ho
      rcases hw.mem_fill ho with hk | hk | ⟨out, -, hk⟩
      · rw [hk]
        rfl
      · rw [hk]
        rfl
      · rw [hk]
        rfl
    case phis => exact fun hf => absurd hf Bool.false_ne_true
    case calls =>
      intro o ho
      rcases hw.mem_fill ho with hk | hk | ⟨out, -, hk⟩
      · exact .of_callee (by rw [hk]; rfl)
      · intro dest callee' args hcall
        rw [hk] at hcall
        cases hcall
        refine ⟨t, ht, ?_, fun hd => ?_⟩
        · rw [length_map, hw.arity, Signature.accepts]
          split <;> simp
        · rw [Option.isSome_map, hw.valued] at hd
          exact hd
      · exact .of_callee (by rw [hk]; rfl)
    case returns =>
      intro v hv
      rw [Parts.fill, (Operation.told_eq.mp hw.switch).1] at hv
      cases hv
  · have hblock := h.mendable.block hb
    constructor
    case edges => exact fun s hs => ⟨(hblock.edges s hs).1, hsome _ (hblock.edges s hs).2⟩
    case known =>
      intro r hr
      refine .inl ?_
      rw [Block.uses, mem_append, mem_append] at hr
      rcases hr with (hr | hr) | hr
      · exact h.mem_defs (hblock.known r (mem_append_left _ (mem_append_left _ hr))) hos
      · obtain ⟨o, ho, hr⟩ := mem_flatMap.mp hr
        rcases mem_append.mp ho with ho | ho
        · obtain ⟨out, d, hout, -, htold⟩ := told_loads hloads ho
          rw [(Operation.told_eq.mp htold).1] at hr
          cases mem_singleton.mp hr
          exact hslot hout
        · exact h.mem_defs (hblock.known r
            (mem_uses_instruction (hw.mem_of_reads ho hr) hr)) hos
      · exact h.mem_defs (hblock.known r (mem_append_right _ hr)) hos
    case order =>
      intro pre o post hsplit r hr hlater
      by_cases hout : ∃ out, p.result = some out ∧ r = out.slot
      · obtain ⟨out, hout, rfl⟩ := hout
        obtain ⟨s, hs, -, hms⟩ := h.slot_mem hw hout
        have hdef : out.slot ∈ ({ b with
            instructions := loads ++ if k = f.graph.entry then (p.allocate b).instructions
              else b.instructions } : Block).defs := by
          refine mem_append_right _ ?_
          rw [hsplit, filterMap_append]
          exact mem_append_right _ hlater
        have hk' : k = f.graph.entry := (key_of_mem_defs hg hb' hs hdef hms).trans hentry
        rw [h.loads_nil hloads hk', nil_append] at hsplit
        have hmem : o ∈ if k = f.graph.entry then (p.allocate b).instructions
            else b.instructions := by
          rw [show (if k = f.graph.entry then (p.allocate b).instructions else b.instructions) =
            pre ++ o :: post from hsplit]
          simp
        have ho : o ∈ b.instructions := hw.mem_of_reads hmem hr
        exact h.slot_lt hn hw hout hb (mem_uses_instruction ho hr)
      · have hunread : ∀ a ∈ loads, r ∉ a.kind.uses := by
          intro a ha hm
          obtain ⟨out, d, hsome, -, htold⟩ := told_loads hloads ha
          rw [(Operation.told_eq.mp htold).1] at hm
          exact hout ⟨out, hsome, mem_singleton.mp hm⟩
        obtain ⟨mid, hmid⟩ := exists_split_of_unread hunread hsplit hr
        obtain ⟨mid', hmid'⟩ := hw.exists_split hmid hr
        exact hblock.order hmid' r hr hlater
    case led =>
      have hled := hblock.led
      by_cases hk' : k = f.graph.entry
      · rw [h.loads_nil hloads hk', nil_append, if_pos hk']
        rw [decide_eq_true hk'] at hled ⊢
        exact hw.led_allocate hled
      · rw [if_neg hk']
        rw [decide_eq_false hk'] at hled ⊢
        refine Led.append (fun o ho => ?_) hled
        obtain ⟨out, d, -, -, htold⟩ := told_loads hloads ho
        exact isAlloca_of_told htold
    case phis => exact hblock.phis
    case calls =>
      intro o ho
      rcases mem_append.mp ho with ho | ho
      · obtain ⟨out, d, -, -, htold⟩ := told_loads hloads ho
        exact .of_callee (by rw [(Operation.told_eq.mp htold).1]; rfl)
      · rcases mem_rest ho with ho | ⟨out, hout, rfl⟩
        · exact hblock.calls o ho
        · exact .of_callee (by
            rw [(Operation.told_eq.mp (hw.result out hout).2.2.1).1]
            rfl)
    case returns => exact hblock.returns

end Staged

theorem Fuses.mended (hx : Fuses f callee t os fused ordinal block trap ends p g)
    (h : Mendable m (fun _ => False) f) (hn : f.Numbered) (ht : m.function? callee = some t)
    (htrap : f.trap ≠ some f.graph.entry)
    (hall : List.Forall₂ (Calls f callee) os fused) :
    Mendable m (fun _ => False) g ∧ ∀ k, g.trap = some k → ∃ b, g.graph.block? k = some b ∧
      b.terminator.kind = .unreachable := by
  have hos : ∀ o ∈ os, o ∈ f.instructions ∧ o.kind.isAlloca = false := by
    intro o ho
    obtain ⟨i, hi⟩ := mem_iff_getElem?.mp ho
    obtain ⟨c, -, hcall⟩ := exists_getElem?_of_forall₂ hall hi
    exact ⟨hcall.mem, by rw [hcall.kind]; rfl⟩
  obtain ⟨f₂, hs, hn₂, hheader, hcounter, hrecorded, hapart, hdefs⟩ := hx.staged h hn hos
  obtain ⟨f₁, f₂', hp, hcut, -⟩ := hx.steps
  have hentry : f₂.graph.entry = f.graph.entry := congrArg Header.entry hheader
  have hlength : ends.length = fused.length := hcut.length_eq.trans hall.length_eq
  have htrap' : trap ≠ f₂.graph.entry := by
    rw [hentry]
    rintro rfl
    rcases hp.shared with hshared | hnone
    · exact htrap hshared
    · have he := h.entry
      rw [hnone] at he
      cases he
  constructor
  · refine hs.mended hn₂ hx.numbered (hcounter ▸ hx.works) ht htrap' (fun r hr => ?_)
      fun c hc r hr => ?_
    · obtain ⟨o, ho, hr⟩ := mem_filterMap.mp hr
      obtain ⟨i, hi⟩ := mem_iff_getElem?.mp ho
      obtain ⟨c, hc, hcall⟩ := exists_getElem?_of_forall₂ hall hi
      have hdest : c.dest = some r := by
        rw [hcall.kind] at hr
        exact hr
      obtain ⟨k, b, hb, hob⟩ := Function.mem_instructions.mp hcall.mem
      obtain ⟨t', ht', -, hvalue⟩ := (h.block hb).calls o hob _ _ _ hcall.kind
      rw [ht] at ht'
      cases ht'
      refine ⟨hx.works.valued.trans (hvalue (by rw [hdest]; rfl)), ?_⟩
      have hi' : i < ends.length := hlength ▸ (List.getElem?_eq_some_iff.mp hc).1
      refine ⟨(ends[i]).2, mem_iff_getElem?.mpr ⟨i, ?_⟩⟩
      rw [getElem?_zip_eq_some, getElem?_map, getElem?_map, hc,
        getElem?_eq_getElem hi']
      exact ⟨congrArg some hdest, rfl⟩
    · obtain ⟨i, hi⟩ := mem_iff_getElem?.mp hc
      obtain ⟨o, -, hcall⟩ := exists_getElem?_of_forall₂ hall.flip hi
      obtain ⟨k, b, hb, hob⟩ := Function.mem_instructions.mp hcall.mem
      have huse : r ∈ o.kind.uses := by
        rw [hcall.kind]
        exact mem_filterMap.mpr ⟨_, hr, rfl⟩
      exact hdefs r (((h.block hb).known r (mem_uses_instruction hob huse)).resolve_right id)
  · intro k hk
    rw [hs.filled.frame.trap, hrecorded] at hk
    cases hk
    obtain ⟨dead, hdead, hempty⟩ := hs.dead
    obtain ⟨loads, -, hblocks⟩ := hs.filled.blocks
    refine ⟨_, (hblocks trap).trans (congrArg _ hdead), ?_⟩
    simp only [Parts.place, if_neg hapart, if_neg htrap']
    exact (isTrap_iff.mp hempty).2.2

end

/-- Once calls have been fused, moving values to memory makes the module valid again, or a counter
runs out. -/
theorem build_demote_valid {n : Module} {caller callee : FuncId} {ops : List OpId}
    {site : Option Site} (h : m.Orderly) (hf : m.function? caller = some f)
    (hd : f.isDeclaration = false)
    (hfirst : ∀ k b, f.graph.block? k = some b →
      Led (decide (k = f.graph.entry)) b.instructions)
    (hm : build m caller callee ops = .ok (n, site)) :
    (site = none → n = m) ∧ (site.isSome → ∃ g, n.function? caller = some g ∧
      ((∃ c, demote g = .error (.exhausted c)) ∨ ∃ e count, demote g = .ok (.ok (e, count)) ∧
        (n.setFunction caller e).findings = [])) := by
  have hn := (h.bounded caller f hf).numbered h.valid hf hd
  have hfirst' : AllocatesFirst f := by
    intro k b hb
    refine ⟨hfirst k b hb, ?_⟩
    rintro rfl
    have := h.entry caller f hf _ (Function.code_eq_some.mpr ⟨b, hb, rfl⟩)
    exact map_eq_nil_iff.mp this
  have hmend := mendable_of_valid (h.functionValid hf hd) hn hfirst'
  rcases build_eq_ok hf hn hm with ⟨rfl, rfl⟩ |
    ⟨t, os, fused, ordinal, block, trap, ends, p, g, ht, -, hall, hx, rfl, rfl⟩
  · exact ⟨fun _ => rfl, fun hs => absurd hs (by simp)⟩
  refine ⟨fun hs => absurd hs (by simp), fun _ => ⟨g, by rw [Module.function?_setFunction]; simp [hf],
    ?_⟩⟩
  obtain ⟨hg, htrap⟩ := hx.mended hmend hn ht (fun hx => (h.trap caller f hf _ hx).1 rfl) hall
  cases hrun : demote g with
  | error a =>
    obtain ⟨c, rfl⟩ := demote_onlyExhausts g a hrun
    exact .inl ⟨c, rfl⟩
  | ok x =>
    cases x with
    | error e =>
      rw [demote, hg.fault?_eq_none] at hrun
      obtain ⟨_, -, hrun⟩ := bind_eq_ok.mp hrun
      obtain ⟨_, -, hrun⟩ := bind_eq_ok.mp hrun
      cases hrun
    | ok y =>
      obtain ⟨e, count⟩ := y
      refine .inr ⟨e, count, rfl, ?_⟩
      obtain ⟨hne, hheader⟩ := demote_numbered hx.numbered hrun
      have hsig : e.signature = f.signature :=
        congrArg Header.signature (hheader.trans hx.header)
      rw [Module.setFunction_setFunction]
      exact Inline.findings_setFunction h.valid h.keyed hf hsig fun _ =>
        ⟨hne.blockKey, hg.valid hx.numbered htrap hrun⟩

/-- A function that returns its argument, and another one. -/
def passing (f : Function) : Module where
  name := "passing"
  functions := .ofList [
    (⟨0⟩, { Function.create ⟨0⟩ "same" [("x", .i64)] .i64 with
      graph := ⟨.ofList [(⟨0⟩, ⟨⟨0⟩, none, [], [], .plain ⟨0⟩ (.ret (some (.reg ⟨0⟩)))⟩)],
        ⟨0⟩, 1, 1⟩ }),
    (⟨1⟩, f)]
  globals := .empty
  nextFunction := 2
  nextGlobal := 0

/-- What comes after the second call reads a register that is defined after the first one. -/
def twice : Function :=
  { Function.create ⟨1⟩ "twice" [("n", .i64)] .i64 with
    nextReg := 6
    graph := ⟨.ofList [
      (⟨0⟩, ⟨⟨0⟩, none, [],
        [.plain ⟨0⟩ (.alloca ⟨1⟩ .i64), .plain ⟨1⟩ (.store (.reg ⟨1⟩) (.reg ⟨0⟩)),
          .plain ⟨2⟩ (.call (some ⟨2⟩) ⟨0⟩ [.reg ⟨0⟩])],
        .plain ⟨3⟩ (.branch ⟨1⟩)⟩),
      (⟨1⟩, ⟨⟨1⟩, none, [],
        [.plain ⟨4⟩ (.binary ⟨3⟩ .add (.reg ⟨2⟩) (.const (.i64 1))),
          .plain ⟨5⟩ (.call (some ⟨4⟩) ⟨0⟩ [.reg ⟨3⟩]),
          .plain ⟨6⟩ (.binary ⟨5⟩ .add (.reg ⟨4⟩) (.reg ⟨3⟩))],
        .plain ⟨7⟩ (.ret (some (.reg ⟨5⟩)))⟩)], ⟨0⟩, 2, 8⟩ }

theorem exists_of_build {α : Type} (m : Module) (caller callee : FuncId) (ops : List OpId)
    (v : Module → Function → α) (a : α)
    (h : (build m caller callee ops).toOption.bind (fun x => x.2.bind fun _ =>
      (x.1.function? caller).map fun g => v x.1 g) = some a) :
    ∃ n s g, build m caller callee ops = .ok (n, some s) ∧ n.function? caller = some g ∧
      v n g = a := by
  obtain ⟨⟨n, site⟩, hrun, h⟩ := Option.bind_eq_some_iff.mp h
  obtain ⟨s, hs, h⟩ := Option.bind_eq_some_iff.mp h
  obtain ⟨g, hg, h⟩ := Option.map_eq_some_iff.mp h
  cases hs
  refine ⟨n, s, g, ?_, hg, h⟩
  cases hb : build m caller callee ops with
  | error a =>
    rw [hb] at hrun
    cases hrun
  | ok x =>
    rw [hb] at hrun
    cases hrun
    rfl

/-- Two calls of `same` are fused, and their results moved to memory. -/
theorem build_demote_valid_twice : (passing twice).Orderly ∧ ∃ n s g e count,
    build (passing twice) ⟨1⟩ ⟨0⟩ [⟨2⟩, ⟨5⟩] = .ok (n, some s) ∧ n.findings ≠ [] ∧
      n.function? ⟨1⟩ = some g ∧ demote g = .ok (.ok (e, count)) ∧
      (n.setFunction ⟨1⟩ e).findings = [] := by
  have h : (passing twice).Orderly := Module.orderly_iff.mpr ⟨by cbv, by decide +kernel⟩
  obtain ⟨n, s, g, hm, hg, hend⟩ := exists_of_build (passing twice) ⟨1⟩ ⟨0⟩ [⟨2⟩, ⟨5⟩]
    (fun n g => (n.findings.isEmpty, (demote g).isOk)) (false, true) (by cbv)
  rw [Prod.mk.injEq] at hend
  have hfirst : ∀ k b, twice.graph.blocks.get? k = some b →
      Led (decide (k = twice.graph.entry)) b.instructions := by decide +kernel
  obtain ⟨g', hg', hfails | ⟨e, count, he, hvalid⟩⟩ :=
    (build_demote_valid h (f := twice) rfl rfl hfirst hm).2 rfl
  all_goals
    rw [hg] at hg'
    cases hg'
  · obtain ⟨c, hc⟩ := hfails
    rw [hc] at hend
    exact absurd hend.2 Bool.false_ne_true
  · refine ⟨h, n, s, g, e, count, hm, ?_, hg, he, hvalid⟩
    intro hnil
    rw [hnil] at hend
    exact Bool.false_ne_true hend.1.symm

/-- A declaration that has a body all the same. No check looks at it, and its entry block is a
loop. -/
def looping : Function :=
  { Function.create ⟨1⟩ "looping" [] .void with
    kind := .externC
    nextReg := 1
    graph := ⟨.ofList [(⟨0⟩, ⟨⟨0⟩, none, [],
      [.plain ⟨0⟩ (.call (some ⟨0⟩) ⟨0⟩ [.const (.i64 1)])], .plain ⟨1⟩ (.branch ⟨0⟩)⟩)], ⟨0⟩, 1, 2⟩ }

/-- A function with few numbers left for operations. -/
def spent : Function :=
  { Function.create ⟨1⟩ "spent" [("n", .i64)] .i64 with
    nextReg := 2
    graph := ⟨.ofList [(⟨0⟩, ⟨⟨0⟩, none, [], [.plain ⟨0⟩ (.call (some ⟨1⟩) ⟨0⟩ [.reg ⟨0⟩])],
      .plain ⟨1⟩ (.ret (some (.reg ⟨1⟩)))⟩)], ⟨0⟩, 1, 4294967280⟩ }

/-- A declaration may have no place for cells, and there may be no numbers left for what moves values
to memory. -/
theorem build_demote_fails :
    ((passing looping).Orderly ∧ ∃ n s g,
      build (passing looping) ⟨1⟩ ⟨0⟩ [⟨0⟩] = .ok (n, some s) ∧ n.function? ⟨1⟩ = some g ∧
        demote g = .ok (.error (.entryTargeted ⟨0⟩))) ∧
    (passing spent).Orderly ∧ ∃ n s g c,
      build (passing spent) ⟨1⟩ ⟨0⟩ [⟨0⟩] = .ok (n, some s) ∧ n.function? ⟨1⟩ = some g ∧
        demote g = .error (.exhausted c) := by
  refine ⟨⟨Module.orderly_iff.mpr ⟨by cbv, by decide +kernel⟩, ?_⟩,
    Module.orderly_iff.mpr ⟨by cbv, by decide +kernel⟩, ?_⟩
  · obtain ⟨n, s, g, hm, hg, hend⟩ := exists_of_build (passing looping) ⟨1⟩ ⟨0⟩ [⟨0⟩]
      (fun _ g => fault? g) (some (.entryTargeted ⟨0⟩)) (by cbv)
    exact ⟨n, s, g, hm, hg, by rw [demote, hend]⟩
  · obtain ⟨n, s, g, hm, hg, hend⟩ := exists_of_build (passing spent) ⟨1⟩ ⟨0⟩ [⟨0⟩]
      (fun _ g => (demote g).isOk) false (by cbv)
    cases hrun : demote g with
    | error a =>
      obtain ⟨c, rfl⟩ := demote_onlyExhausts g a hrun
      exact ⟨n, s, g, c, hm, hg, hrun⟩
    | ok x =>
      rw [hrun] at hend
      exact absurd hend.symm Bool.false_ne_true

end Site

end SiteFusion
