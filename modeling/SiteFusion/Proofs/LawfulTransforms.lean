import SiteFusion.Proofs.LawfulFunctions

namespace SiteFusion

open List Option

/-- Instructions that were just made. -/
theorem Law.Stands.fresh {l : Law} {first : Prop} {o : Operation Instruction} {i : Instruction}
    {t : Tags} (hk : o.kind = i) (ht : o.tags = t) (hf : i.function? = none)
    (hg : i.global? = none) (hp : l.Plain t) : l.Stands first o := by
  subst hk ht
  exact stands_of_none hf hg hp

theorem Terminator.successors_mapOperands (t : Terminator) (φ : Operand → Operand) :
    (t.mapOperands φ).successors = t.successors := by
  cases t <;> rfl

namespace Spill

variable {l : Law} {f g : Function} {ty : Ty} {tags : Tags} {slot : Reg} {k : BlockId} {n n' : Nat}
  {ps : List (BlockId × OpId)} {r : Report}

theorem tags_replaceIncoming (b : Block) (i : Nat) (pred : BlockId) (old new : Reg) :
    (replaceIncoming b i pred old new).phis.map Operation.tags = b.phis.map Operation.tags := by
  rw [replaceIncoming]
  refine ext_getElem (by simp) fun j _ _ => ?_
  simp only [getElem_map, getElem_modify]
  split <;> rfl

theorem createSlot_stays (hf : f.Lawful l) (ht : l.Plain tags)
    (hg : createSlot f ty tags = .ok (g, slot)) : f.Stays l g := by
  obtain ⟨⟨f₁, r⟩, h₁, hg⟩ := bind_eq_ok.mp hg
  obtain ⟨⟨f₂, o⟩, h₂, hg⟩ := bind_eq_ok.mp hg
  cases hg
  obtain ⟨htick, hkind, htags⟩ := Function.ticks_op h₂
  have h := hf.tick ((Function.ticks_freshTyped h₁).trans htick)
  exact h.trans (h.lawful.patch fun b _ hb =>
    ⟨hb.insertAt _ (.fresh hkind htags rfl rfl ht), rfl⟩)

section

variable {d : Definition}

theorem reloadPhis_stays {uses : List (Nat × BlockId)} (hf : f.Lawful l) (hd : l.Plain d.tags)
    (hg : reloadPhis d slot k uses f = .ok g) : f.Stays l g := by
  induction uses generalizing f with
  | nil =>
    cases hg
    exact hf.stays
  | cons x uses ih =>
    obtain ⟨index, pred⟩ := x
    unfold reloadPhis at hg
    split at hg
    · obtain ⟨⟨f₁, v, o⟩, h₁, hg⟩ := bind_eq_ok.mp hg
      obtain ⟨htick, hkind, htags⟩ := newLoad_ticks h₁
      have t₁ := hf.tick htick
      have t₂ := t₁.trans (t₁.lawful.patch (k := pred) (c := fun b => b.push o) fun b _ hb =>
        ⟨hb.push (.fresh hkind htags rfl rfl hd), rfl⟩)
      have t₃ := t₂.trans (t₂.lawful.patch (k := k)
        (c := fun b => replaceIncoming b index pred d.reg v) fun b _ hb =>
          ⟨Block.Kept.lawful ⟨tags_replaceIncoming b index pred d.reg v, rfl, rfl⟩ hb, rfl⟩)
      exact t₃.trans (ih t₃.lawful hg)
    · exact ih hf hg

theorem reloadInstructions_stands {first : Prop} {is is' : List (Operation Instruction)}
    (hd : l.Plain d.tags) (hi : ∀ o ∈ is, l.Stands first o)
    (hg : reloadInstructions d slot is f = .ok (g, is')) :
    f.Ticks g ∧ ∀ o ∈ is', l.Stands first o := by
  induction is generalizing f is' with
  | nil =>
    cases hg
    exact ⟨.refl _, hi⟩
  | cons o is ih =>
    obtain ⟨ho, hi⟩ := forall_mem_cons.mp hi
    unfold reloadInstructions at hg
    split at hg
    · obtain ⟨⟨f₁, v, load⟩, h₁, hg⟩ := bind_eq_ok.mp hg
      obtain ⟨⟨f₂, rest⟩, h₂, hg⟩ := bind_eq_ok.mp hg
      cases hg
      obtain ⟨htick, hkind, htags⟩ := newLoad_ticks h₁
      obtain ⟨htick', hrest⟩ := ih hi h₂
      refine ⟨htick.trans htick', forall_mem_cons.mpr
        ⟨.fresh hkind htags rfl rfl hd, forall_mem_cons.mpr ⟨?_, hrest⟩⟩⟩
      exact ho.map
    · obtain ⟨⟨f₂, rest⟩, h₂, hg⟩ := bind_eq_ok.mp hg
      cases hg
      obtain ⟨htick, hrest⟩ := ih hi h₂
      exact ⟨htick, forall_mem_cons.mpr ⟨ho, hrest⟩⟩

theorem reloadTerminator_stands (first : Prop) {t t' : Operation Terminator}
    {loads : List (Operation Instruction)} (hd : l.Plain d.tags)
    (hg : reloadTerminator d slot t f = .ok (g, loads, t')) :
    f.Ticks g ∧ (∀ o ∈ loads, l.Stands first o) ∧ t'.kind.successors = t.kind.successors ∧
      t'.tags = t.tags ∧ t'.kind.isSwitch = t.kind.isSwitch := by
  unfold reloadTerminator at hg
  split at hg
  · obtain ⟨⟨f₁, v, load⟩, h₁, hg⟩ := bind_eq_ok.mp hg
    cases hg
    obtain ⟨htick, hkind, htags⟩ := newLoad_ticks h₁
    refine ⟨htick, fun o ho => ?_, Terminator.successors_mapOperands _ _, rfl,
      Terminator.isSwitch_mapOperands _ _⟩
    exact mem_singleton.mp ho ▸ .fresh hkind htags rfl rfl hd
  · cases hg
    exact ⟨.refl _, (fun _ h => nomatch h), rfl, rfl, rfl⟩

theorem reloadBlock_stays (hf : f.Lawful l) (hd : l.Plain d.tags)
    (hg : reloadBlock d slot k f = .ok g) : f.Stays l g := by
  unfold reloadBlock at hg
  split at hg
  · cases hg
    exact hf.stays
  · obtain ⟨f₁, h₁, hg⟩ := bind_eq_ok.mp hg
    have t₁ := reloadPhis_stays hf hd h₁
    split at hg
    · cases hg
      exact t₁
    · split at hg
      · cases hg
        exact t₁
      · next b hb =>
        obtain ⟨⟨f₂, insts⟩, h₂, hg⟩ := bind_eq_ok.mp hg
        obtain ⟨⟨f₃, loads, term⟩, h₃, hg⟩ := bind_eq_ok.mp hg
        cases hg
        have hlaw := t₁.lawful.block k b hb
        obtain ⟨htick, hinsts⟩ := reloadInstructions_stands hd hlaw.instructions h₂
        obtain ⟨htick', hloads, hsucc, htags, hswitch⟩ :=
          reloadTerminator_stands (k = f₁.graph.entry) hd h₃
        have ht := htick.trans htick'
        have t₃ := t₁.lawful.tick ht
        refine t₁.trans (t₃.trans (t₃.lawful.patch fun s hs hl =>
          ⟨⟨hl.phis, fun o ho => ?_, fun hl x hx => ?_⟩, ?_⟩))
        · rw [t₃.entry_eq]
          rcases mem_append.mp ho with ho | ho
          · exact hinsts o ho
          · exact hloads o ho
        · rw [Block.successors, hsucc] at hx
          exact t₃.isOpen (hlaw.edges hl x hx)
        · rw [ht.block?, hb] at hs
          cases hs
          exact Block.exit_congr rfl htags hswitch

theorem reloadBlocks_stays {ks : List BlockId} (hf : f.Lawful l) (hd : l.Plain d.tags)
    (hg : reloadBlocks d slot ks f = .ok g) : f.Stays l g := by
  induction ks generalizing f with
  | nil =>
    cases hg
    exact hf.stays
  | cons k ks ih =>
    obtain ⟨f₁, h₁, hg⟩ := bind_eq_ok.mp hg
    have t₁ := reloadBlock_stays hf hd h₁
    exact t₁.trans (ih t₁.lawful hg)

theorem demoteValue_stays (hf : f.Lawful l) (hd : l.Plain d.tags)
    (hg : demoteValue f d = .ok g) : f.Stays l g := by
  obtain ⟨⟨f₁, slot⟩, h₁, hg⟩ := bind_eq_ok.mp hg
  obtain ⟨f₂, h₂, hg⟩ := bind_eq_ok.mp hg
  obtain ⟨⟨f₃, store⟩, h₃, hg⟩ := bind_eq_ok.mp hg
  cases hg
  have t₁ := createSlot_stays hf hd h₁
  have t₂ := t₁.trans (reloadBlocks_stays t₁.lawful hd h₂)
  obtain ⟨htick, hkind, htags⟩ := Function.ticks_op h₃
  have t₃ := t₂.trans (t₂.lawful.tick htick)
  refine t₃.trans (t₃.lawful.patch fun b _ hb => ?_)
  rcases insertStore_cases d store b with he | ⟨i, he⟩
  · rw [he]
    exact ⟨hb, rfl⟩
  · rw [he]
    exact ⟨hb.insertAt i (.fresh hkind htags rfl rfl hd), rfl⟩

end

theorem demoteValues_stays {ds : List Definition} (hf : f.Lawful l) (hd : ∀ d ∈ ds, l.Plain d.tags)
    (hg : demoteValues ds f = .ok g) : f.Stays l g := by
  induction ds generalizing f with
  | nil =>
    cases hg
    exact hf.stays
  | cons d ds ih =>
    obtain ⟨hd, hds⟩ := forall_mem_cons.mp hd
    obtain ⟨f₁, h₁, hg⟩ := bind_eq_ok.mp hg
    have t₁ := demoteValue_stays hf hd h₁
    exact t₁.trans (ih t₁.lawful hds hg)

theorem storeIncoming_stays {incoming : List (BlockId × Operand)} {seen : List BlockId}
    (hf : f.Lawful l) (ht : l.Plain tags) (hg : storeIncoming slot tags incoming seen f = .ok g) :
    f.Stays l g := by
  induction incoming generalizing f seen with
  | nil =>
    cases hg
    exact hf.stays
  | cons x incoming ih =>
    obtain ⟨pred, v⟩ := x
    unfold storeIncoming at hg
    split at hg
    · exact ih hf hg
    · obtain ⟨⟨f₁, store⟩, h₁, hg⟩ := bind_eq_ok.mp hg
      obtain ⟨htick, hkind, htags⟩ := Function.ticks_op h₁
      have t₁ := hf.tick htick
      have t₂ := t₁.trans (t₁.lawful.patch (k := pred) (c := fun b => b.push store)
        fun b _ hb => ⟨hb.push (.fresh hkind htags rfl rfl ht), rfl⟩)
      exact t₂.trans (ih t₂.lawful hg)

theorem demotePhi_stays {i : Nat} {p : Operation Phi} (hf : f.Lawful l) (ht : l.Plain p.tags)
    (hg : demotePhi f k i p = .ok g) : f.Stays l g := by
  obtain ⟨⟨f₁, slot⟩, h₁, hg⟩ := bind_eq_ok.mp hg
  obtain ⟨f₂, h₂, hg⟩ := bind_eq_ok.mp hg
  obtain ⟨⟨f₃, load⟩, h₃, hg⟩ := bind_eq_ok.mp hg
  cases hg
  have t₀ : f.Stays l (f.modifyBlock k fun b => { b with phis := b.phis.eraseIdx i }) :=
    hf.patch fun b _ hb =>
      ⟨⟨fun p hp => hb.phis p (mem_of_mem_eraseIdx hp), hb.instructions, hb.edges⟩, rfl⟩
  have t₁ := t₀.trans (createSlot_stays t₀.lawful ht h₁)
  have t₂ := t₁.trans (storeIncoming_stays t₁.lawful ht h₂)
  obtain ⟨htick, hkind, htags⟩ := Function.ticks_op h₃
  have t₃ := t₂.trans (t₂.lawful.tick htick)
  exact t₃.trans (t₃.lawful.patch fun b _ hb =>
    ⟨hb.insertAt 0 (.fresh hkind htags rfl rfl ht), rfl⟩)

theorem demotePhis_stays (hf : f.Lawful l) (hg : demotePhis ps f n = .ok (g, n')) :
    f.Stays l g := by
  induction ps generalizing f n with
  | nil =>
    cases hg
    exact hf.stays
  | cons x ps ih =>
    obtain ⟨k, op⟩ := x
    unfold demotePhis at hg
    split at hg
    · exact ih hf hg
    · next b hb =>
      split at hg
      · exact ih hf hg
      · split at hg
        · exact ih hf hg
        · next p hp =>
          obtain ⟨f₁, h₁, hg⟩ := bind_eq_ok.mp hg
          have t₁ := demotePhi_stays hf ((hf.block k b hb).phis p (mem_of_getElem? hp)) h₁
          exact t₁.trans (ih t₁.lawful hg)

/-- A value that may be moved to memory is no marker. -/
theorem plain_definition {d : Definition} (hf : f.Lawful l) (hd : d ∈ definitions f) :
    l.Plain d.tags := by
  obtain ⟨k, b, hb, -, hd⟩ := mem_definitions hd
  rcases hd with ⟨p, hp, -, ht⟩ | ⟨o, ho, -, hdest, ht⟩
  · exact ht ▸ (hf.block k b hb).phis p hp
  · refine ht ▸ ((hf.block k b hb).instructions o ho).plain fun hm => ?_
    rw [hm] at hdest
    cases hdest

theorem demote_stays {n : SpillCount} (hf : f.Lawful l) (hg : demote f = .ok (.ok (g, n))) :
    f.Stays l g := by
  unfold demote at hg
  split at hg
  · cases hg
  · obtain ⟨f₁, h₁, hg⟩ := bind_eq_ok.mp hg
    obtain ⟨⟨f₂, phis⟩, h₂, hg⟩ := bind_eq_ok.mp hg
    cases hg
    have t₁ := demoteValues_stays hf
      (fun d hd => plain_definition hf (definitions_of_escaping hd)) h₁
    exact t₁.trans (demotePhis_stays t₁.lawful h₂)

/-- Phis are counted one by one. -/
theorem demotePhis_le (hg : demotePhis ps f n = .ok (g, n')) : n ≤ n' ∧ (n' = n → g = f) := by
  induction ps generalizing f n with
  | nil =>
    cases hg
    exact ⟨Nat.le_refl _, fun _ => rfl⟩
  | cons x ps ih =>
    obtain ⟨k, op⟩ := x
    unfold demotePhis at hg
    split at hg
    · exact ih hg
    · split at hg
      · exact ih hg
      · split at hg
        · exact ih hg
        · obtain ⟨f₁, h₁, hg⟩ := bind_eq_ok.mp hg
          obtain ⟨hle, -⟩ := ih hg
          exact ⟨Nat.le_of_succ_le hle, fun he => absurd (he ▸ hle) (Nat.not_succ_le_self n)⟩

/-- A function is what it was if nothing had to be moved. -/
theorem demote_eq_self {n : SpillCount} (hg : demote f = .ok (.ok (g, n)))
    (hn : n.registers = 0) (hp : n.phis = 0) : g = f := by
  unfold demote at hg
  split at hg
  · cases hg
  · obtain ⟨f₁, h₁, hg⟩ := bind_eq_ok.mp hg
    obtain ⟨⟨f₂, phis⟩, h₂, hg⟩ := bind_eq_ok.mp hg
    cases hg
    rw [length_eq_zero_iff.mp hn] at h₁
    cases h₁
    exact (demotePhis_le h₂).2 hp

/-- Values can be moved to memory if no branch leads to the entry block. -/
theorem fault?_eq_none_of_lawful (hf : f.Lawful l) (hl : l.strict) (hfree : l.free) :
    fault? f = none := by
  have hpreds : f.graph.predecessors f.graph.entry = [] := by
    rw [Graph.predecessors, map_eq_nil_iff, filter_eq_nil_iff]
    intro b hb hs
    obtain ⟨k, hk⟩ := Table.mem_values_iff.mp hb
    exact ((hf.block k b hk).edges hl _ (contains_iff_mem.mp hs)).2 hfree rfl
  rw [fault?, (hf.entry hl).1, hpreds]
  rfl

theorem transform_leads (hf : f.Lawful l) (hg : transform f = .ok (g, r)) : f.Leads l g := by
  obtain ⟨done, h₁, hg⟩ := bind_eq_ok.mp hg
  cases done with
  | error x =>
    cases hg
    exact hf.leads
  | ok x =>
    obtain ⟨f₁, n⟩ := x
    have h := (demote_stays hf h₁).toLeads
    dsimp only at hg
    split at hg
    · cases hg
      exact h
    · cases hg
      exact h

theorem transform_honest (hg : transform f = .ok (g, r)) (hr : r.modified = false) : g = f := by
  obtain ⟨done, h₁, hg⟩ := bind_eq_ok.mp hg
  cases done with
  | error x =>
    cases hg
    rfl
  | ok x =>
    obtain ⟨f₁, n⟩ := x
    dsimp only at hg
    split at hg
    · next hn =>
      cases hg
      simp only [SpillCount.isEmpty, Bool.and_eq_true, decide_eq_true_eq] at hn
      exact demote_eq_self h₁ hn.1 hn.2
    · cases hg
      cases hr

end Spill

namespace Branches

variable {l : Law} {f g : Function} {b target : BlockId} {r : Report}

theorem mem_successors_of_outcome? {known : List (Reg × Const)} {t : Terminator}
    (h : outcome? known t = some target) : target ∈ t.successors := by
  cases t with
  | condBranch c t e =>
    rw [outcome?] at h
    split at h
    · cases h
      exact mem_cons_self
    · split at h
      · cases h
        split
        · exact mem_cons_self
        · exact mem_cons_of_mem _ mem_cons_self
      · cases h
  | switch v cases d =>
    obtain ⟨c, -, h⟩ := bind_eq_some_iff.mp h
    obtain ⟨i, -, h⟩ := bind_eq_some_iff.mp h
    cases h
    rw [Terminator.successors, mem_append]
    cases hl : cases.lookup i with
    | none => exact .inr mem_cons_self
    | some t =>
      obtain ⟨l₁, l₂, rfl, -⟩ := List.lookup_eq_some_iff.mp hl
      exact .inl (List.mem_map.mpr ⟨(i, t), mem_append_right _ mem_cons_self, rfl⟩)
  | branch t => cases h
  | ret v => cases h
  | unreachable => cases h

theorem foldBranch_leads (hf : f.Lawful l) (ht : l.strict → f.Open l.free target)
    (hg : foldBranch f b target = .ok g) : f.Leads l g := by
  unfold foldBranch at hg
  split at hg
  · cases hg
    exact hf.leads
  · obtain ⟨⟨f₁, branch⟩, h₁, hg⟩ := bind_eq_ok.mp hg
    cases hg
    obtain ⟨htick, hkind, -⟩ := Function.ticks_op h₁
    have t₁ := hf.ticks htick
    have t₂ := t₁.trans (t₁.lawful.modifyBlock (k := b)
      (c := fun block => { block with terminator := branch }) fun s _ hs =>
        ⟨hs.phis, hs.instructions, fun hl x hx => by
          rw [Block.successors, hkind, Terminator.successors, mem_singleton] at hx
          exact hx ▸ t₁.isOpen (ht hl)⟩)
    exact t₂.trans (t₂.lawful.mapPhis _ _)

theorem foldAll_leads {folds : List (BlockId × BlockId)} (hf : f.Lawful l)
    (ht : l.strict → ∀ x ∈ folds, f.Open l.free x.2) (hg : foldAll folds f = .ok g) :
    f.Leads l g := by
  induction folds generalizing f with
  | nil =>
    cases hg
    exact hf.leads
  | cons x folds ih =>
    obtain ⟨b, t⟩ := x
    obtain ⟨f₁, h₁, hg⟩ := bind_eq_ok.mp hg
    have t₁ := foldBranch_leads hf (fun hl => ht hl (b, t) mem_cons_self) h₁
    exact t₁.trans (ih t₁.lawful
      (fun hl x hx => t₁.isOpen (ht hl x (mem_cons_of_mem _ hx))) hg)

theorem transform_lawful (hf : f.Lawful l) (hg : transform f = .ok (g, r)) :
    g.Lawful l ∧ g.header = f.header := by
  obtain ⟨f₁, h₁, hg⟩ := bind_eq_ok.mp hg
  have t₁ := foldAll_leads hf (fun hl x hx => by
    obtain ⟨b, hb, hx⟩ := mem_filterMap.mp hx
    obtain ⟨t, ht, rfl⟩ := map_eq_some_iff.mp hx
    obtain ⟨k, hk⟩ := Table.mem_values_iff.mp hb
    exact (hf.block k b hk).edges hl t (mem_successors_of_outcome? ht)) h₁
  obtain ⟨hlaw, hhead⟩ := t₁.lawful.removeDeadBlocks
  have hres : f₁.removeDeadBlocks.Lawful l ∧ f₁.removeDeadBlocks.header = f.header :=
    ⟨hlaw, hhead.trans t₁.header⟩
  dsimp only at hg
  split at hg
  · cases hg
    exact hres
  · cases hg
    exact hres

theorem transform_honest (hg : transform f = .ok (g, r)) (hr : r.modified = false) : g = f := by
  obtain ⟨f₁, h₁, hg⟩ := bind_eq_ok.mp hg
  dsimp only at hg
  split at hg
  · next hn =>
    cases hg
    rw [length_eq_zero_iff.mp hn.1] at h₁
    cases h₁
    rw [Function.removeDeadBlocks, length_eq_zero_iff.mp hn.2]
    rfl
  · cases hg
    cases hr

end Branches

namespace DeadCode

variable {l : Law} {f g : Function} {r : Report}

theorem sweep_leads (hf : f.Lawful l) : f.Leads l (sweep f) :=
  hf.mapBlocks (c := fun _ b => sweepBlock f.uses.eraseDups b) fun _ _ _ hb =>
    ⟨fun p hp => hb.phis p (mem_of_mem_filter hp),
      fun o ho => hb.instructions o (mem_of_mem_filter ho), hb.edges⟩

theorem settle_leads (n : Nat) (hf : f.Lawful l) : f.Leads l (settle n f) := by
  induction n generalizing f with
  | zero => exact hf.leads
  | succ n ih =>
    unfold settle
    dsimp only
    split
    · exact hf.leads
    · exact (sweep_leads hf).trans (ih (sweep_leads hf).lawful)

theorem length_flatMap_le {α β : Type} {as : List α} {c d : α → List β}
    (h : ∀ a, (c a).length ≤ (d a).length) : (as.flatMap c).length ≤ (as.flatMap d).length := by
  induction as with
  | nil => exact Nat.le_refl _
  | cons a as ih =>
    rw [flatMap_cons, flatMap_cons, length_append, length_append]
    exact Nat.add_le_add (h a) ih

theorem size_sweep_le (f : Function) : size (sweep f) ≤ size f := by
  have hvalues : (sweep f).graph.blockList = f.graph.blockList.map (sweepBlock f.uses.eraseDups) :=
    Table.values_map f.graph.blocks _
  unfold size Function.instructionCount Function.instructions
  rw [hvalues]
  rw [flatMap_map, flatMap_map]
  exact Nat.add_le_add (length_flatMap_le fun b => length_filter_le _ b.phis)
    (length_flatMap_le fun b => length_filter_le _ b.instructions)

theorem size_settle_le (n : Nat) (f : Function) : size (settle n f) ≤ size f := by
  induction n generalizing f with
  | zero => exact Nat.le_refl _
  | succ n ih =>
    unfold settle
    dsimp only
    split
    · exact Nat.le_refl _
    · exact Nat.le_trans (ih _) (size_sweep_le f)

/-- A function is what it was if nothing has gone. -/
theorem settle_eq_self (n : Nat) (h : size (settle n f) = size f) : settle n f = f := by
  cases n with
  | zero => rfl
  | succ n =>
    unfold settle at h ⊢
    dsimp only at h ⊢
    split
    · rfl
    · next hne =>
      rw [if_neg hne] at h
      exact absurd (Nat.le_antisymm (size_sweep_le f) (h ▸ size_settle_le n _)) hne

theorem transform_leads (hf : f.Lawful l) (hg : transform f = .ok (g, r)) : f.Leads l g := by
  have h : f.Leads l (eliminate f) := settle_leads _ hf
  unfold transform at hg
  dsimp only at hg
  split at hg
  · cases hg
    exact h
  · cases hg
    exact h

theorem transform_honest (hg : transform f = .ok (g, r)) (hr : r.modified = false) : g = f := by
  unfold transform at hg
  dsimp only at hg
  split at hg
  · next hn =>
    cases hg
    refine settle_eq_self _ (Nat.le_antisymm (size_settle_le _ f) ?_)
    exact Nat.sub_eq_zero_iff_le.mp hn
  · cases hg
    cases hr

end DeadCode

namespace FunctionPass

variable {l : Law} {f g : Function} {r : Report}

theorem transform_lawful (p : FunctionPass) (hf : f.Lawful l) (hg : p.transform f = .ok (g, r)) :
    g.Lawful l ∧ g.header = f.header := by
  cases p with
  | simplifyCfg => exact Branches.transform_lawful hf hg
  | deadCode =>
    have h := DeadCode.transform_leads hf hg
    exact ⟨h.lawful, h.header⟩
  | spill =>
    have h := Spill.transform_leads hf hg
    exact ⟨h.lawful, h.header⟩

theorem transform_honest (p : FunctionPass) (hg : p.transform f = .ok (g, r))
    (hr : r.modified = false) : g = f := by
  cases p with
  | simplifyCfg => exact Branches.transform_honest hg hr
  | deadCode => exact DeadCode.transform_honest hg hr
  | spill => exact Spill.transform_honest hg hr

end FunctionPass

end SiteFusion
