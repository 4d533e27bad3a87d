import SiteFusion.Proofs.FusedBlocks
import SiteFusion.Proofs.LawfulTransforms
import SiteFusion.Proofs.RenumberedSites

namespace SiteFusion

open List Option

theorem Law.plain_role (l : Law) {r : Role} (hr : r ≠ .start) (c : String) (n : UInt64) :
    l.Plain (r.tags c n) := fun _ => by rw [Role.get?_start, if_neg hr]

/-- The same law, with another demand on the entry block and none on the numbers of calls. -/
def Law.entering (l : Law) (free : Prop) : Law := { l with free, call := fun _ _ => True }

namespace Inline

variable {l : Law} {f g callee : Function} {free : Prop} {continuation : BlockId}
  {copied : List OpId} {n : Mapping} {trap : Option BlockId}

/-- Every block of the callee has a new block of its own, or the shared one. -/
theorem renameBlocks_leads {ks : List BlockId} {t t' : Table BlockId BlockId} (hf : f.Lawful l)
    (ht : l.strict → ∀ k k', t.get? k = some k' → f.There k')
    (hg : renameBlocks trap ks f t = .ok (g, t')) :
    f.Leads l g ∧ (l.strict → ∀ k k', t'.get? k = some k' → g.There k') ∧
      ∀ k, k ∈ ks ∨ (t.get? k).isSome = true → (t'.get? k).isSome = true := by
  induction ks generalizing f t with
  | nil =>
    cases hg
    exact ⟨hf.leads, ht, fun k hk => hk.resolve_left not_mem_nil⟩
  | cons b ks ih =>
    obtain ⟨f₁, new, t₁, hnew, hg⟩ : ∃ f₁ new, f.Leads l f₁ ∧ (l.strict → f₁.There new) ∧
        renameBlocks trap ks f₁ (t.insert b new) = .ok (g, t') := by
      unfold renameBlocks at hg
      split at hg
      · obtain ⟨⟨f₁, new⟩, h₁, hg⟩ := bind_eq_ok.mp hg
        obtain ⟨t₁, hnew⟩ := hf.trapBlock h₁
        exact ⟨f₁, new, t₁, hnew, hg⟩
      · obtain ⟨⟨f₁, new⟩, h₁, hg⟩ := bind_eq_ok.mp hg
        obtain ⟨t₁, hnew⟩ := hf.createBlock h₁
        exact ⟨f₁, new, t₁, hnew, hg⟩
    obtain ⟨t₂, hthere, hsome⟩ := ih t₁.lawful (fun hl k k' hk => by
      rw [Table.get?_insert] at hk
      split at hk
      · cases hk
        exact hnew hl
      · exact t₁.isThere (ht hl k k' hk)) hg
    refine ⟨t₁.trans t₂, hthere, fun k hk => hsome k ?_⟩
    rw [Table.get?_insert]
    split
    · exact .inr rfl
    · next hne => exact hk.imp_left fun h => (mem_cons.mp h).resolve_left hne

theorem Cloned.lawful {c b : Block} {there there' : BlockId → Prop} {first first' : Prop}
    (h : Cloned n continuation copied c b) (hc : c.Lawful (l.entering free) there first)
    (hnew : ∀ o ∈ copied, ∀ c, l.call o c)
    (hn : l.strict → ¬ first') (hcont : l.strict → there' continuation)
    (hlabel : l.strict → ∀ s, there s → there' (n.label s)) : b.Lawful l there' first' := by
  refine ⟨fun p hp => ?_, fun o ho => ?_, fun hl s hs => ?_⟩
  · obtain ⟨q, hq, -, htags, -⟩ := forall₂_exists_left h.phis hp
    exact htags ▸ hc.phis q hq
  · obtain ⟨a, ha, hkind, htags, hid⟩ := forall₂_exists_left h.instructions ho
    obtain ⟨⟨hrefers, -⟩, hnote⟩ := hc.instructions a ha
    have hstands : l.Stands first o := by
      refine ⟨⟨hkind ▸ Law.refers_mapOperands.mpr (Law.refers_mapDest.mpr hrefers),
        fun c _ => hnew o.id hid c⟩, ?_⟩
      rw [htags, hkind]
      refine hnote.imp_right fun hm => ⟨?_, hm.2⟩
      rw [hm.1]
      rfl
    exact hstands.later hn
  · rw [Block.successors, h.terminator.1] at hs
    rcases successors_copyTerminator hs with rfl | ⟨s₀, hs₀, rfl⟩
    · exact hcont hl
    · exact hlabel hl s₀ (hc.edges hl s₀ hs₀)

/-- The blocks of a lawful callee are copied to blocks that are not the first one. -/
theorem Copies.leads (h : Copies n continuation trap callee.graph.blocks.entries f g copied)
    (hf : f.Lawful l) (hc : callee.Lawful (l.entering free))
    (hnew : ∀ o ∈ copied, ∀ c, l.call o c)
    (hcont : l.strict → f.There continuation)
    (hlabel : l.strict → ∀ k, callee.graph.blocks.contains k = true → f.There (n.label k)) :
    f.Leads l g := by
  refine hf.frame h.frame fun k b hk => ?_
  rcases h.block k b hk with ⟨hk, -⟩ | ⟨x, hx, -, rfl, hclone⟩
  · exact hf.block k b hk
  · have hx : callee.graph.block? x.1 = some x.2 := Table.get?_eq_some_iff.mpr hx
    refine hclone.lawful (hc.block x.1 x.2 hx) hnew (fun hl => ?_) (fun hl => (hcont hl).isOpen _)
      fun hl s hs => (hlabel hl s hs.1).isOpen _
    exact (hlabel hl x.1 (Table.contains_iff.mpr ⟨x.2, hx⟩)).2

theorem hoistAllocas_leads (hf : f.Lawful l) (key : BlockId) : f.Leads l (hoistAllocas f key) := by
  unfold hoistAllocas
  split
  · exact hf.leads
  · next b hb =>
    have hlaw := hf.block key b hb
    have t₁ : f.Leads l (f.modifyBlock key fun b =>
        { b with instructions := b.instructions.filter fun o => !o.kind.isAlloca }) :=
      hf.modifyBlock fun s _ hs =>
        hs.setInstructions fun o ho => hs.instructions o (mem_of_mem_filter ho)
    refine t₁.trans (t₁.lawful.modifyBlock fun s _ hs => hs.setInstructions fun o ho => ?_)
    rcases mem_append.mp ho with ho | ho
    · rcases mem_append.mp ho with ho | ho
      · exact hs.instructions o (mem_of_mem_take ho)
      · obtain ⟨hmem, halloca⟩ := mem_filter.mp ho
        have hstands := hlaw.instructions o hmem
        refine Law.stands_of_plain hstands.1 (hstands.plain fun hm => ?_)
        rw [hm] at halloca
        cases halloca
    · exact hs.instructions o (mem_of_mem_drop ho)

theorem bindResult_leads {dest : Reg} {returns : List (BlockId × Operand)} (hf : f.Lawful l)
    (hg : bindResult f continuation dest returns = .ok g) : f.Leads l g := by
  unfold bindResult at hg
  split at hg
  iterate 2
    obtain ⟨⟨f₁, o⟩, h₁, hg⟩ := bind_eq_ok.mp hg
    cases hg
    obtain ⟨htick, hkind, htags⟩ := Function.ticks_op h₁
    have t₁ := hf.ticks htick
    exact t₁.trans (t₁.lawful.modifyBlock fun b _ hb =>
      hb.insertAt 0 (.fresh hkind htags rfl rfl l.plain_empty))
  · obtain ⟨⟨f₁, p⟩, h₁, hg⟩ := bind_eq_ok.mp hg
    cases hg
    obtain ⟨htick, -, htags⟩ := Function.ticks_op h₁
    have t₁ := hf.ticks htick
    refine t₁.trans (t₁.lawful.modifyBlock fun b _ hb =>
      ⟨fun q hq => ?_, hb.instructions, hb.edges⟩)
    rcases mem_append.mp hq with hq | hq
    · exact hb.phis q hq
    · rw [mem_singleton.mp hq, htags]
      exact l.plain_empty

end Inline

namespace Site

variable {l : Law} {f : Function}

/-- The branches of a block are turned towards a block that they may lead to. -/
theorem redirect_stays (hf : f.Lawful l) (b old : BlockId) {target : BlockId}
    (ht : l.strict → f.Open l.free target) : f.Stays l (redirect f b old target) := by
  refine hf.patch fun s _ hs => ⟨⟨hs.phis, hs.instructions, fun hl x hx => ?_⟩,
    Block.exit_congr rfl rfl (s.terminator.kind.isSwitch_mapTargets _)⟩
  have hx : x ∈ (s.terminator.kind.redirect old target).successors := hx
  rw [Terminator.redirect, Function.successors_mapTargets] at hx
  obtain ⟨y, hy, rfl⟩ := List.mem_map.mp hx
  split
  · exact ht hl
  · exact hs.edges hl y hy

end Site

namespace Inline

variable {l : Law} {f g callee : Function} {free : Prop}

theorem splice_leads {call : Call} {inlined : Inlined} (hf : f.Lawful l)
    (hc : callee.Lawful (l.entering free)) (hnew : ∀ o ∈ inlined.cloned, ∀ c, l.call o c)
    (hg : splice f callee call = .ok (g, some inlined)) : f.Leads l g := by
  obtain ⟨f₁, f₂, f₃, f₄, f₅, tail, operands, blocks, copied, h₁, h₂, h₃, h₄, h₅, hcloned, rfl⟩ :=
    splice_eq_ok hg
  obtain ⟨t₁, hcont⟩ := hf.splitBlock h₁
  have t₂ : f₁.Leads l (f₁.modifyBlock call.block fun b =>
      { b with instructions := b.instructions.take call.index }) :=
    t₁.lawful.modifyBlock fun s _ hs =>
      hs.setInstructions fun o ho => hs.instructions o (mem_of_mem_take ho)
  have t₃ := t₂.trans (t₂.lawful.ticks (renameRegs_ticks h₂).1)
  obtain ⟨t₄, hthere, hsome⟩ := renameBlocks_leads t₃.lawful
    (fun _ k k' hk => by cases hk) h₃
  have hlabel : l.strict → ∀ k, callee.graph.blocks.contains k = true →
      f₃.There ((⟨operands, blocks⟩ : Mapping).label k) := by
    intro hl k hk
    obtain ⟨k', hk'⟩ := isSome_iff_exists.mp
      (hsome k (.inl (Table.mem_keys_iff.mpr (Table.contains_iff.mp hk))))
    rw [Mapping.label, hk']
    exact hthere hl k k' hk'
  have t₅ := (copyBlocks_copies h₄).leads t₄.lawful hc (hcloned ▸ hnew)
    (fun hl => t₄.isThere (t₃.isThere (hcont _ rfl hl))) hlabel
  have t₆ := t₅.trans (hoistAllocas_leads t₅.lawful
    ((⟨operands, blocks⟩ : Mapping).label callee.graph.entry))
  have t₇ : f₃.Leads l f₅ := by
    rcases h₅ with ⟨-, rfl⟩ | ⟨d, -, h₅⟩
    · exact t₆
    · exact t₆.trans (bindResult_leads t₆.lawful h₅)
  exact t₁.trans (t₃.trans (t₄.trans (t₇.trans (Site.redirect_stays t₇.lawful _ _ fun hl =>
    (t₇.isThere (hlabel hl _ (hc.entry hl).1)).isOpen _).toLeads)))

theorem le_of_mem_cloned {head : Outline} {ops : List OpId} {regs : List Reg} {call : Call}
    {inlined : Inlined} {b : Block} {o : Operation Instruction} (h : f.Spare head ops regs)
    (hb : f.graph.block? call.block = some b) (ho : b.instructions[call.index]? = some o)
    (hg : splice f callee call = .ok (g, some inlined)) :
    ∀ op ∈ inlined.cloned, head.floor ≤ op.index := by
  obtain ⟨f₁, f₂, f₃, f₄, f₅, tail, operands, blocks, copied, h₁, h₂, h₃, h₄, -, hcloned, -⟩ :=
    splice_eq_ok hg
  obtain ⟨s, hs, hi⟩ := Function.splitBlock_first h₁ hb
  obtain ⟨fresh, hs₂, -⟩ := renameRegs_spare (dropCall_spare (h.splitBlock h₁) ho hs hi) h₂
  intro op hop
  exact UInt32.le_trans (renameBlocks_spare hs₂ h₃).floor
    ((copyBlocks_copies h₄).issued op (hcloned ▸ hop))

theorem adoptCollector_lawful (hf : f.Lawful l) (callee : Function) :
    (adoptCollector f callee).Lawful l := by
  unfold adoptCollector
  split
  · exact ⟨hf.entry, hf.trap, hf.block⟩
  · exact hf

end Inline

namespace Site

variable {l : Law} {f g : Function} {base : Int64} {callee caller : FuncId} {fused : List Fused}
  {op : OpId} {other s : Site} {result ty : Ty} {slot : Reg} {tags : Tags} {target : BlockId}

theorem detach_leads {ends : Option (BlockId × BlockId)} (hf : f.Lawful l)
    (hg : detach f op = .ok (g, ends)) :
    f.Leads l g ∧ ∀ p t, ends = some (p, t) → l.strict → g.There t := by
  unfold detach at hg
  split at hg
  · cases hg
    exact ⟨hf.leads, fun _ _ he => nomatch he⟩
  · next b i hl =>
    obtain ⟨⟨f₁, tail⟩, h₁, hg⟩ := bind_eq_ok.mp hg
    obtain ⟨t₁, htail⟩ := hf.splitBlock h₁
    cases tail with
    | none =>
      cases hg
      exact ⟨t₁, fun _ _ he => nomatch he⟩
    | some tail =>
      cases hg
      have t₂ : f₁.Leads l (f₁.modifyBlock b fun b =>
          { b with instructions := b.instructions.eraseIdx i }) :=
        t₁.lawful.modifyBlock fun s _ hs =>
          hs.setInstructions fun o ho => hs.instructions o (mem_of_mem_eraseIdx ho)
      refine ⟨t₁.trans t₂, fun p t he hl => ?_⟩
      cases he
      exact t₂.isThere (htail _ rfl hl)

theorem detachAll_leads {ends : Option (List (BlockId × BlockId))} (hf : f.Lawful l)
    (ht : l.strict → f.There target) (hg : detachAll target fused f = .ok (g, ends)) :
    f.Leads l g ∧ ∀ es, ends = some es → l.strict → ∀ x ∈ es, g.There x.2 := by
  induction fused generalizing f ends with
  | nil =>
    cases hg
    refine ⟨hf.leads, fun es he _ x hx => ?_⟩
    cases he
    cases hx
  | cons c fused ih =>
    obtain ⟨⟨f₁, ends₁⟩, h₁, hg⟩ := bind_eq_ok.mp hg
    obtain ⟨t₁, htail⟩ := detach_leads hf h₁
    cases ends₁ with
    | none =>
      cases hg
      exact ⟨t₁, fun _ he => nomatch he⟩
    | some x =>
      obtain ⟨pred, tail⟩ := x
      obtain ⟨⟨f₂, more⟩, h₂, hg⟩ := bind_eq_ok.mp hg
      cases hg
      have t₂ : f₁.Leads l (redirect f₁ pred tail target) :=
        (redirect_stays t₁.lawful pred tail fun hl => (t₁.isThere (ht hl)).isOpen _).toLeads
      obtain ⟨t₃, hmore⟩ := ih t₂.lawful (fun hl => t₂.isThere (t₁.isThere (ht hl))) h₂
      refine ⟨t₁.trans (t₂.trans t₃), fun es he hl x hx => ?_⟩
      obtain ⟨es', rfl, rfl⟩ := map_eq_some_iff.mp he
      rcases mem_cons.mp hx with rfl | hx
      · exact t₃.isThere (t₂.isThere (htail pred tail rfl hl))
      · exact hmore es' rfl hl x hx

theorem reloadResult_leads {b : BlockId} {dest : Reg} (hf : f.Lawful l) (ht : l.Plain tags)
    (hg : reloadResult f b dest slot ty tags = .ok g) : f.Leads l g := by
  obtain ⟨⟨f₁, load⟩, h₁, hg⟩ := bind_eq_ok.mp hg
  cases hg
  obtain ⟨htick, hkind, htags⟩ := Function.ticks_op h₁
  have t₁ := hf.ticks htick
  exact t₁.trans (t₁.lawful.modifyBlock fun b _ hb =>
    hb.insertAt 0 (.fresh hkind htags rfl rfl ht))

theorem Parts.Works.fill_lawful {p : Parts} {floor : UInt32} {target : Function} {ordinal : UInt64}
    {trap : BlockId} {ends : List (BlockId × BlockId)} {there : BlockId → Prop} {first : Prop}
    (h : p.Works floor callee target ordinal trap fused ends) (hc : l.function callee)
    (hcall : ∀ o, l.call o callee) (hn : l.strict → ¬ first) (htrap : l.strict → there trap)
    (htails : l.strict → ∀ x ∈ ends, there x.2) (b : Block) : (p.fill b).Lawful l there first := by
  have hrole : ∀ {r : Role}, r ≠ .start → l.Plain (r.tags target.name ordinal) :=
    fun hr => l.plain_role hr target.name ordinal
  refine ⟨fun q hq => ?_, fun o ho => ?_, fun hl s hs => ?_⟩
  · rcases mem_cons.mp hq with rfl | hq
    · rw [h.caseTags]
      exact hrole (by simp)
    · obtain ⟨i, hi⟩ := getElem?_of_mem hq
      rw [(h.inputs i q hi).2.1]
      exact hrole (by simp)
  · simp only [Parts.fill, cons_append, mem_cons, mem_append, not_mem_nil, or_false] at ho
    rcases ho with rfl | rfl | ho | rfl
    · obtain ⟨hk, -⟩ := Operation.told_eq.mp h.start
      have hmarker : l.Stands False p.start :=
        ⟨Law.allows_of_none (by rw [hk]; rfl) (by rw [hk]; rfl), .inr ⟨hk, fun h => h⟩⟩
      exact hmarker.later hn
    · obtain ⟨hk, ht⟩ := Operation.told_eq.mp h.call
      refine Law.stands_of_plain ?_ (ht ▸ hrole (by simp))
      rw [Law.Allows, hk]
      refine ⟨⟨fun c hc' => ?_, fun _ hg => by cases hg⟩, fun c hc' => ?_⟩
      · cases hc'
        exact hc
      · cases hc'
        exact hcall _
    · obtain ⟨r, hr, rfl⟩ : ∃ r, p.result = some r ∧ r.store = o := by simpa using ho
      obtain ⟨hk, ht⟩ := Operation.told_eq.mp (h.result r hr).2.2.2
      exact .fresh hk ht rfl rfl (hrole (by simp))
    · obtain ⟨hk, ht⟩ := Operation.told_eq.mp h.finish
      exact .fresh hk ht rfl rfl (hrole (by simp))
  · rw [Block.successors, Parts.fill, (Operation.told_eq.mp h.switch).1] at hs
    rcases mem_successors_numbered hs with hs | rfl
    · obtain ⟨x, hx, rfl⟩ := List.mem_map.mp hs
      exact htails hl x hx
    · exact htrap hl

theorem fill_leads {target : Function} {ordinal : UInt64} {block trap : BlockId}
    {ends : List (BlockId × BlockId)} {site : Site} (hf : f.Lawful l) (hc : l.function callee)
    (hcall : ∀ o, l.call o callee) (hblock : l.strict → f.There block)
    (htrap : l.strict → f.There trap) (htails : l.strict → ∀ x ∈ ends, f.There x.2)
    (hg : fill f caller callee target ordinal block trap fused ends = .ok (g, site)) :
    f.Leads l g := by
  obtain ⟨p, hp, hfilled, -⟩ := fill_eq_ok hg
  obtain ⟨loads, hloads, hblocks⟩ := hfilled.blocks
  have hresult : l.Plain (Role.result.tags target.name ordinal) := l.plain_role (by simp) _ _
  refine hf.frame hfilled.frame fun k b' hb' => ?_
  rw [hblocks] at hb'
  obtain ⟨b, hb, rfl⟩ := map_eq_some_iff.mp hb'
  have hplace : (p.place f.graph.entry block k b).Lawful l (f.Open l.free) (k = f.graph.entry) := by
    unfold Parts.place
    split
    · next hk =>
      subst hk
      exact hp.fill_lawful hc hcall (fun hl => (hblock hl).2) (fun hl => (htrap hl).isOpen _)
        (fun hl x hx => (htails hl x hx).isOpen _) b
    · split
      · unfold Parts.allocate
        split
        · exact hf.block k b hb
        · next r hr =>
          obtain ⟨hk, ht⟩ := Operation.told_eq.mp (hp.result r hr).2.2.1
          exact (hf.block k b hb).insertAt _ (.fresh hk ht rfl rfl hresult)
      · exact hf.block k b hb
  refine hplace.setInstructions fun o ho => ?_
  rcases mem_append.mp ho with ho | ho
  · have hm := List.mem_map_of_mem (f := Operation.told) ho
    rw [hloads] at hm
    unfold loadsAt at hm
    split at hm
    · cases hm
    · obtain ⟨d, -, htold⟩ := mem_reloadsAt.mp hm
      obtain ⟨hk, ht⟩ := Operation.told_eq.mp htold
      exact .fresh hk ht rfl rfl hresult
  · exact hplace.instructions o ho

theorem fuseCalls_leads {target : Function} {site : Option Site} (hf : f.Lawful l)
    (hc : l.function callee) (hcall : ∀ o, l.call o callee)
    (hg : fuseCalls f caller callee target fused = .ok (g, site)) : f.Leads l g := by
  obtain ⟨ordinal, -, hg⟩ := bind_eq_ok.mp hg
  obtain ⟨⟨f₁, trap⟩, h₁, hg⟩ := bind_eq_ok.mp hg
  obtain ⟨⟨f₂, block⟩, h₂, hg⟩ := bind_eq_ok.mp hg
  obtain ⟨⟨f₃, ends⟩, h₃, hg⟩ := bind_eq_ok.mp hg
  obtain ⟨t₁, htrap⟩ := hf.trapBlock h₁
  obtain ⟨t₂, hblock⟩ := t₁.lawful.createBlock h₂
  have t₂' : f₂.Leads l (f₂.modifyBlock block fun b =>
      { b with label := some ("fuse." ++ target.name) }) :=
    t₂.lawful.modifyBlock fun b _ hb => ⟨hb.phis, hb.instructions, hb.edges⟩
  obtain ⟨t₃, htails⟩ := detachAll_leads t₂'.lawful (fun hl => t₂'.isThere (hblock hl)) h₃
  have t₂₃ := t₂'.trans t₃
  have t₁₃ := t₁.trans (t₂.trans t₂₃)
  cases ends with
  | none =>
    cases hg
    exact t₁₃
  | some ends =>
    obtain ⟨⟨f₄, site'⟩, h₄, hg⟩ := bind_eq_ok.mp hg
    cases hg
    exact t₁₃.trans (fill_leads t₁₃.lawful hc hcall (fun hl => t₂₃.isThere (hblock hl))
      (fun hl => t₂₃.isThere (t₂.isThere (htrap hl))) (htails ends rfl) h₄)

/-- Values can still be moved to memory when calls have been fused, in a function that obeys the
law: its entry block, to which no branch leads, is not the one that is recorded as a trap. -/
theorem fault?_eq_none_of_build {m n : Module} {ops : List OpId} {site : Option Site}
    (hf : m.function? caller = some f) (hlaw : f.Lawful l) (hl : l.strict) (hfree : l.free)
    (hc : l.function callee) (hcall : ∀ o, l.call o callee)
    (hm : build m caller callee ops = .ok (n, site)) :
    ∃ g, n.function? caller = some g ∧ g.Lawful l ∧ Spill.fault? g = none := by
  rcases build_cases hm with ⟨rfl, -⟩ | ⟨f', target, fused, g, hf', -, -, hg, rfl⟩
  · exact ⟨f, hf, hlaw, Spill.fault?_eq_none_of_lawful hlaw hl hfree⟩
  · cases hf.symm.trans hf'
    have hg' := (fuseCalls_leads hlaw hc hcall hg).lawful
    exact ⟨g, Module.function?_setFunction_self hf, hg', Spill.fault?_eq_none_of_lawful hg' hl hfree⟩

theorem addCases_stays (hf : f.Lawful l) (more : List (Int64 × BlockId))
    (hm : l.strict → ∀ x ∈ more, f.Open l.free x.2) : f.Stays l (s.addCases f more) := by
  refine hf.patch fun b _ hb => ⟨⟨hb.phis, hb.instructions, fun hl t ht => ?_⟩, ?_⟩
  · have hedges := hb.edges hl
    unfold Block.successors at ht hedges
    unfold Block.mapTerminator Operation.map at ht
    cases hk : b.terminator.kind with
    | switch v cases d =>
      rw [hk] at ht hedges
      simp only [Terminator.successors, map_append, mem_append, mem_singleton]
        at ht hedges
      rcases ht with (ht | ht) | ht
      · exact hedges t (.inl ht)
      · obtain ⟨x, hx, rfl⟩ := List.mem_map.mp ht
        exact hm hl x hx
      · exact hedges t (.inr ht)
    | _ =>
      rw [hk] at ht hedges
      exact hedges t ht
  · refine Block.exit_congr rfl rfl ?_
    unfold Block.mapTerminator Operation.map
    cases b.terminator.kind <;> rfl

theorem join_leads {caseSlot : Reg} {dest : Option Reg} {args : List Operand} {joined : Bool}
    (hf : f.Lawful l) (hs : l.strict → f.There s.head)
    (hg : s.join f result op caseSlot dest args = .ok (g, joined)) : f.Leads l g := by
  obtain ⟨id, -, hg⟩ := bind_eq_ok.mp hg
  obtain ⟨⟨f₁, ends⟩, h₁, hg⟩ := bind_eq_ok.mp hg
  obtain ⟨t₁, htail⟩ := detach_leads hf h₁
  cases ends with
  | none =>
    cases hg
    exact t₁
  | some x =>
    obtain ⟨pred, tail⟩ := x
    obtain ⟨⟨f₂, store⟩, h₂, hg⟩ := bind_eq_ok.mp hg
    obtain ⟨⟨f₃, stores⟩, h₃, hg⟩ := bind_eq_ok.mp hg
    obtain ⟨k₂, hkind₂, htags₂⟩ := Function.ticks_op h₂
    obtain ⟨k₃, hstores⟩ := storeArguments_ticks h₃
    have hnew : ∀ {first : Prop}, ∀ o ∈ store :: stores, l.Stands first o := by
      intro first o ho
      rcases mem_cons.mp ho with rfl | ho
      · exact .fresh hkind₂ htags₂ rfl rfl
          (l.plain_role (r := .caseStore) (by simp) s.callee s.ordinal)
      · obtain ⟨x, -, i, -, hk, ht⟩ := hstores o ho
        exact .fresh hk ht rfl rfl (l.plain_role (by simp) s.callee s.ordinal)
    have t₃ := t₁.lawful.ticks (k₂.trans k₃)
    have t₄ : f₃.Leads l (f₃.modifyBlock pred fun b =>
        { b with instructions := b.instructions ++ store :: stores }) :=
      t₃.lawful.modifyBlock fun b _ hb => hb.setInstructions fun o ho =>
        (mem_append.mp ho).elim (hb.instructions o) (hnew o)
    have t₃₄ := t₃.trans t₄
    have t₅ := t₃₄.trans (redirect_stays t₃₄.lawful pred tail fun hl =>
      (t₃₄.isThere (t₁.isThere (hs hl))).isOpen _).toLeads
    have hadd : ∀ f', f₁.Leads l f' → f₁.Leads l (s.addCases f' [(id, tail)]) := by
      intro f' t
      refine t.trans (addCases_stays t.lawful [(id, tail)] fun hl x hx => ?_).toLeads
      rw [mem_singleton.mp hx]
      exact (t.isThere (htail pred tail rfl hl)).isOpen _
    dsimp only at hg
    split at hg
    · obtain ⟨f₆, h₆, hg⟩ := bind_eq_ok.mp hg
      cases hg
      exact t₁.trans (hadd f₆ (t₅.trans (reloadResult_leads t₅.lawful
        (l.plain_role (r := .result) (by simp) s.callee s.ordinal) h₆)))
    · cases hg
      exact t₁.trans (hadd _ t₅)

theorem raiseStore_stands {o : Operation Instruction} {i : Instruction} {first : Prop}
    (ho : l.Stands first o) (h : raiseStore slot base o.kind = .ok i) :
    l.Stands first (o.map fun _ => i) := by
  unfold raiseStore at h
  split at h
  · next p v hk =>
    have hplain : l.Plain o.tags := ho.plain fun hm => by
      rw [hk] at hm
      cases hm
    split at h
    · split at h
      · obtain ⟨sum, -, h⟩ := bind_eq_ok.mp h
        cases h
        exact Law.stands_of_none rfl rfl hplain
      · cases h
        exact Law.stands_of_none rfl rfl hplain
    · cases h
      exact Law.stands_of_none rfl rfl hplain
  · cases h
    exact ho

theorem raiseStores_stands {is is' : List (Operation Instruction)} {first : Prop}
    (hi : ∀ o ∈ is, l.Stands first o) (h : raiseStores slot base is = .ok is') :
    ∀ o ∈ is', l.Stands first o := by
  induction is generalizing is' with
  | nil =>
    cases h
    exact hi
  | cons o is ih =>
    obtain ⟨i, h₁, h⟩ := bind_eq_ok.mp h
    obtain ⟨rest, h₂, h⟩ := bind_eq_ok.mp h
    cases h
    intro a ha
    rcases mem_cons.mp ha with rfl | ha
    · exact raiseStore_stands (hi o mem_cons_self) h₁
    · exact ih (fun o ho => hi o (mem_cons_of_mem _ ho)) h₂ a ha

theorem raiseBlocks_stays {ks : List BlockId} (hf : f.Lawful l)
    (hg : raiseBlocks slot base ks f = .ok g) : f.Stays l g := by
  induction ks generalizing f with
  | nil =>
    cases hg
    exact hf.stays
  | cons k ks ih =>
    unfold raiseBlocks at hg
    split at hg
    · exact ih hf hg
    · next b hb =>
      obtain ⟨insts, h₁, hg⟩ := bind_eq_ok.mp hg
      have t₁ : f.Stays l (f.modifyBlock k fun b => { b with instructions := insts }) :=
        hf.patch fun _ _ hs =>
          ⟨hs.setInstructions (raiseStores_stands (hf.block k b hb).instructions h₁), rfl⟩
      exact t₁.trans (ih t₁.lawful hg)

theorem replaceAll_stays (pairs : List (Reg × Reg)) (hf : f.Lawful l) :
    f.Stays l (replaceAll f pairs) := by
  unfold replaceAll
  induction pairs generalizing f with
  | nil => exact hf.stays
  | cons x pairs ih =>
    have t₁ : f.Stays l (replaceUses f x.1 x.2) := by
      refine ⟨hf.mapBlocks (c := fun _ b =>
        ((b.mapPhis fun p => p.mapOperands fun o => o.replace x.1 (.reg x.2)).mapInstructions
          fun i => i.replaceUse x.1 (.reg x.2)).mapTerminator fun t =>
            t.replaceUse x.1 (.reg x.2)) fun k b _ hb => ⟨fun p hp => ?_, fun o ho => ?_, ?_⟩,
        Function.exits_mapBlocks fun _ b _ =>
          Block.exit_congr rfl rfl (b.terminator.kind.isSwitch_mapOperands _)⟩
      · obtain ⟨q, hq, rfl⟩ := List.mem_map.mp hp
        exact hb.phis q hq
      · obtain ⟨a, ha, rfl⟩ := List.mem_map.mp ho
        exact (hb.instructions a ha).map
      · intro hl s hs
        rw [Block.successors] at hs
        exact hb.edges hl s ((Terminator.successors_mapOperands b.terminator.kind _).subst hs)
    exact t₁.trans (ih t₁.lawful)

theorem redirects_stays (old : BlockId) (ks : List BlockId) (hf : f.Lawful l)
    (ht : l.strict → f.There target) :
    f.Stays l (ks.foldl (fun f p => redirect f p old target) f) := by
  induction ks generalizing f with
  | nil => exact hf.stays
  | cons p ks ih =>
    have t₁ := redirect_stays hf p old fun hl => (ht hl).isOpen _
    exact t₁.trans (ih t₁.lawful fun hl => t₁.isThere (ht hl))

theorem open_of_mem_cases (hf : f.Lawful l) (hl : l.strict) {x : Int64 × BlockId}
    (hx : x ∈ s.cases f) : f.Open l.free x.2 := by
  unfold cases at hx
  split at hx
  · cases hx
  · next b hb =>
    split at hx
    · next v l d hk =>
      refine (hf.block _ b hb).edges hl x.2 ?_
      rw [Block.successors, hk, Terminator.successors]
      exact mem_append_left _ (List.mem_map_of_mem hx)
    · cases hx

theorem dropSlots_stays (hf : f.Lawful l) (ordinal : UInt64) : f.Stays l (dropSlots f ordinal) :=
  hf.patch fun _ _ hb =>
    ⟨hb.setInstructions fun o ho => hb.instructions o (mem_of_mem_filter ho), rfl⟩

/-- How a site takes in another one: all that is done before the switch of the other one is cut off
leaves the blocks where they are. -/
theorem absorb_eq_ok {own theirs : Reg} (hf : f.Lawful l) (hs : l.strict → f.There s.head)
    (hg : s.absorb other f own theirs = .ok g) :
    ∃ f', f.Stays l f' ∧ g = dropSlots (f'.modifyBlock other.dispatch fun b =>
      { b with terminator := ⟨b.terminator.id, .unreachable, .empty⟩ }).removeDeadBlocks
        other.ordinal := by
  obtain ⟨base, -, hg⟩ := bind_eq_ok.mp hg
  obtain ⟨f₁, h₁, hg⟩ := bind_eq_ok.mp hg
  have t₁ := raiseBlocks_stays hf h₁
  have t₂ := t₁.trans (redirects_stays other.head (f₁.graph.predecessors other.head) t₁.lawful
    fun hl => t₁.isThere (hs hl))
  have t₃ := t₂.trans (replaceAll_stays (slotPairs s other own theirs) t₂.lawful)
  dsimp only at hg
  split at hg
  · obtain ⟨more, hmore, hg⟩ := bind_eq_ok.mp hg
    cases hg
    refine ⟨_, t₃.trans (addCases_stays (s := s) t₃.lawful more fun hl x hx => ?_), rfl⟩
    have hx' : x.2 ∈ (other.cases f).map Prod.snd := by
      rw [← raiseCases_targets hmore]
      exact List.mem_map_of_mem hx
    obtain ⟨y, hy, hyx⟩ := List.mem_map.mp hx'
    rw [← hyx]
    exact t₃.isOpen (open_of_mem_cases hf hl hy)
  · cases hg
    exact ⟨_, t₃.trans (addCases_stays (s := s) t₃.lawful [] fun _ x hx => nomatch hx), rfl⟩

theorem absorb_lawful {own theirs : Reg} (hf : f.Lawful l) (hs : l.strict → f.There s.head)
    (hg : s.absorb other f own theirs = .ok g) : g.Lawful l ∧ g.header = f.header := by
  obtain ⟨f', t, rfl⟩ := absorb_eq_ok hf hs hg
  have t' := t.toLeads.trans (t.lawful.modifyBlock (k := other.dispatch)
    (c := fun b => { b with terminator := ⟨b.terminator.id, .unreachable, .empty⟩ })
    fun b _ hb => ⟨hb.phis, hb.instructions, fun _ _ hs => nomatch hs⟩)
  obtain ⟨hlaw, hhead⟩ := t'.lawful.removeDeadBlocks
  have hdrop := dropSlots_stays hlaw other.ordinal
  exact ⟨hdrop.lawful, hdrop.header.trans (hhead.trans t'.header)⟩

theorem merge_lawful {merged : Bool} (hf : f.Lawful l) (hs : l.strict → f.There s.head)
    (hg : s.merge f other = .ok (g, merged)) :
    g.Lawful l ∧ g.header = f.header ∧ (merged = false → g = f) := by
  unfold merge at hg
  split at hg
  · split at hg
    · obtain ⟨f₁, h₁, hg⟩ := bind_eq_ok.mp hg
      cases hg
      obtain ⟨hlaw, hhead⟩ := absorb_lawful hf hs h₁
      exact ⟨hlaw, hhead, fun h => nomatch h⟩
    · cases hg
      exact ⟨hf, rfl, fun _ => rfl⟩
  · cases hg
    exact ⟨hf, rfl, fun _ => rfl⟩

theorem there_of_mem_findAll (hf : f.Lawful l) (hl : l.strict) (hn : f.Counted True) (hs : s ∈ findAll f) :
    f.There s.head := by
  obtain ⟨b, -, hs⟩ := mem_filterMap.mp hs
  obtain ⟨⟨c, n⟩, -, hs⟩ := bind_eq_some_iff.mp hs
  obtain ⟨start, hstart, hs⟩ := bind_eq_some_iff.mp hs
  obtain ⟨loads, hloads, hs⟩ := bind_eq_some_iff.mp hs
  obtain ⟨args, -, hs⟩ := bind_eq_some_iff.mp hs
  obtain ⟨head, hhead, hs⟩ := bind_eq_some_iff.mp hs
  cases hs
  obtain ⟨start', hstart', hloads⟩ := bind_eq_some_iff.mp hloads
  obtain ⟨insts, hbefore, -⟩ := bind_eq_some_iff.mp hloads
  cases hstart.symm.trans hstart'
  obtain ⟨k, s, hk, x, hx, -, hnote, rfl⟩ := Function.mem_findNoted.mp (mem_of_head? hstart)
  have hstarts : x.tags.get? SiteNote.start = some (.str c) :=
    of_decide_eq_true (Bool.and_eq_true_iff.mp hnote).1
  have hkey : s.id = k := hn.blockKey k s hk
  have hlaw := hf.block k s hk
  cases (hkey ▸ hhead : f.graph.block? k = some head).symm.trans hk
  rcases Block.mem_listed hx with ⟨p, hp, htags⟩ | ⟨i, o, hi, rfl⟩ | rfl
  · rw [htags, hlaw.phis p hp hl] at hstarts
    cases hstarts
  · rcases (hlaw.instructions o (mem_of_getElem? hi)).2 with hplain | ⟨-, hfirst⟩
    · rw [hplain hl] at hstarts
      cases hstarts
    · rw [hkey]
      exact ⟨Table.contains_iff.mpr ⟨_, hk⟩, hfirst⟩
  · cases hbefore

end Site

theorem Tags.get?_attach_of_ne {name other : String} (hn : name ≠ other) (t : Tags)
    (v : TagValue) : (t.attach name v).get? other = t.get? other := by
  obtain ⟨tags⟩ := t
  induction tags with
  | nil => simp [attach, attachTo, get?, hn]
  | cons a tags ih =>
    by_cases ha : a.name = name
    · simp [attach, attachTo, get?, ha, hn]
    · by_cases ho : a.name = other
      · simp [attach, attachTo, get?, ho, Ne.symm hn]
      · simpa [attach, attachTo, get?, ha, ho] using ih

namespace Rounds

variable {l : Law} {f g : Function}

theorem restamp_leads {copied : List OpId} (hf : f.Lawful l) (hg : restamp f copied = .ok g) :
    f.Leads l g := by
  obtain ⟨-, -, t, -, -, -, rfl⟩ := restamp_eq hg
  have hplain : ∀ op tags, l.Plain tags → l.Plain (Block.restamp t copied op tags) := by
    intro op tags ht hl
    rw [← ht hl, Block.restamp]
    split
    · unfold restampTags
      split
      · rfl
      · exact Tags.get?_attach_of_ne (by decide) tags _
    · rfl
  refine hf.mapBlocks (c := fun _ b => b.mapTags (Block.restamp t copied)) fun k b _ hb =>
    ⟨fun p hp => ?_, fun o ho => ?_, hb.edges⟩
  · obtain ⟨q, hq, rfl⟩ := List.mem_map.mp hp
    exact hplain q.id q.tags (hb.phis q hq)
  · obtain ⟨a, ha, rfl⟩ := List.mem_map.mp ho
    obtain ⟨hrefers, hnote⟩ := hb.instructions a ha
    exact ⟨hrefers, hnote.imp_left (hplain a.id a.tags)⟩

end Rounds

end SiteFusion
