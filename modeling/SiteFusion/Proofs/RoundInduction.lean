import SiteFusion.Pipeline.Run
import SiteFusion.Proofs.Numbering

namespace SiteFusion

open List

namespace Rounds

theorem mem_addNew {α : Type} [DecidableEq α] {l : List α} {a b : α} :
    b ∈ addNew l a ↔ b ∈ l ∨ b = a := by
  unfold addNew
  split
  · next h =>
    refine ⟨.inl, fun hb => hb.elim (fun h => h) ?_⟩
    rintro rfl
    exact contains_iff_mem.mp h
  · rw [mem_append, mem_singleton]

/-- Count sites that were merged. -/
def addMerged (s : Rounds) (n : Nat) : Rounds :=
  { s with count := { s.count with merged := s.count.merged + n } }

/-- What is kept while values are moved to memory and sites are looked up and merged. A state is
looked at together with the callers that something was inlined into in the current round, and with
the fault that fusion stops at, if it does. The functions that may be changed are among `K`, and `F`
is what a site that was found in such a function is good for. -/
structure Steady (K : FuncId → Prop) (F : Site → FuncId → Module → Prop)
    (P : List FuncId → Rounds → Option FusionFault → Prop) : Prop where
  spill : ∀ {l s k t e}, P l s none → K k → s.spill k = .ok (t, e) → P l t e
  found : ∀ {l s k f name site}, P l s none → K k → s.module.function? k = some f →
    Site.find f name = .ok (some site) → F site k s.module
  merge : ∀ {l s k f sites keep other g done}, P l s none → K k → s.module.function? k = some f →
    Site.all f = .ok sites → keep ∈ sites → other ∈ sites → keep.merge f other = .ok (g, done) →
      P l ({ s with module := s.module.setFunction k g }.addMerged done.toNat) none
  stop : ∀ {l s n e}, P l (s.addMerged n) (some e) → P l s (some e)

/-- What every step of a run keeps, where `W` is what calls that wait are good for, which no step may
spoil. -/
structure Guarded (K : FuncId → Prop) (F : Site → FuncId → Module → Prop)
    (W : FuncId × OpId → Module → Prop) (P : List FuncId → Rounds → Option FusionFault → Prop) :
    Prop where
  steady : ∀ s₀ : Rounds, Steady K F fun l s e => P l s e ∧ ∀ y, W y s₀.module → W y s.module
  caller : ∀ {l s g}, P l s none → g ∈ Candidates.discover s.module s.excluded s.settings →
    K g.caller ∧ ∀ c ∈ g.groups, ∀ op ∈ c.calls, W (g.caller, op) s.module
  queue : ∀ {l s} (q : List (FuncId × OpId)), P l s none → P l { s with queue := q } none
  extend : ∀ {l s k site op m joined}, P l s none → K k → F site k s.module →
    site.extend s.module op = .ok (m, joined) →
      F site k m ∧ (∀ y, W y s.module → W y m) ∧ P l { s with
        module := m
        count := { s.count with extended := s.count.extended + joined.toNat } } none
  build : ∀ {l s k callee calls m site}, P l s none → K k → (∀ op ∈ calls, W (k, op) s.module) →
    Site.build s.module k callee calls = .ok (m, site) →
      (∀ y, W y s.module → W y m) ∧ (∀ x op, site = some x → x.call = some op → W (k, op) m) ∧
      P l { s with
        module := m
        count := { s.count with fused := s.count.fused + site.isSome.toNat } } none
  inline : ∀ {l s k op t l'}, P l s none → K k → W (k, op) s.module →
    s.inlineOne k op l = .ok (t, l') → (∀ y, W y s.module → W y t.module) ∧ P l' t none
  round : ∀ {l s}, P l s none → P [] { s with callers := l.foldl addNew s.callers } none

variable {K : FuncId → Prop} {F : Site → FuncId → Module → Prop} {W : FuncId × OpId → Module → Prop}
  {P : List FuncId → Rounds → Option FusionFault → Prop} {l l' : List FuncId} {s t : Rounds}
  {e : Option FusionFault} {k : FuncId} {a : Site} {c d : Bool} {g : CallGroup} {n : Nat}

theorem Steady.heedless (h : Steady K F P) :
    Steady K F fun l s e => P l s e ∧ ∀ _ : FuncId × OpId, True → True :=
  ⟨fun hs hk hr => ⟨h.spill hs.1 hk hr, hs.2⟩, fun hs => h.found hs.1,
    fun hs hk hf hall ha hb hm => ⟨h.merge hs.1 hk hf hall ha hb hm, hs.2⟩,
    fun hs => ⟨h.stop hs.1, hs.2⟩⟩

/-- All calls that wait are in functions among `K`, and good for what they should be. -/
def Waits (K : FuncId → Prop) (W : FuncId × OpId → Module → Prop) (s : Rounds) : Prop :=
  ∀ y ∈ s.queue, K y.1 ∧ W y s.module

theorem Waits.step (hq : s.Waits K W) (hqueue : t.queue = s.queue)
    (hw : ∀ y, W y s.module → W y t.module) : t.Waits K W := by
  intro y hy
  obtain ⟨hk, hy⟩ := hq y (hqueue ▸ hy)
  exact ⟨hk, hw y hy⟩

theorem Waits.enqueue (hq : s.Waits K W) (hk : K k) {op : OpId} (hw : W (k, op) s.module) :
    (s.enqueue k op).Waits K W := by
  intro y hy
  rcases mem_addNew.mp hy with hy | rfl
  · exact hq y hy
  · exact ⟨hk, hw⟩

/-- How a run goes on while calls are found and fused. -/
structure Goes (K : FuncId → Prop) (W : FuncId × OpId → Module → Prop)
    (P : List FuncId → Rounds → Option FusionFault → Prop) (l : List FuncId) (s t : Rounds)
    (e : Option FusionFault) : Prop where
  holds : P l t e
  waits : t.Waits K W
  good : ∀ y, W y s.module → W y t.module

theorem Goes.after (h : Goes K W P l s t e) {u : Rounds} {e' : Option FusionFault}
    (h' : Goes K W P l t u e') : Goes K W P l s u e' :=
  ⟨h'.holds, h'.waits, fun y hy => h'.good y (h.good y hy)⟩

theorem Guarded.enqueue (h : Guarded K F W P) (hs : P l s none) (hq : s.Waits K W) (hk : K k)
    {op : OpId} (hw : W (k, op) s.module) : Goes K W P l s (s.enqueue k op) none :=
  ⟨h.queue _ hs, hq.enqueue hk hw, fun _ hy => hy⟩

theorem Guarded.enqueues (h : Guarded K F W P) (hs : P l s none) (hq : s.Waits K W) (hk : K k)
    {ops : List OpId} (hw : ∀ op ∈ ops, W (k, op) s.module) :
    Goes K W P l s (ops.foldl (fun s op => s.enqueue k op) s) none := by
  induction ops generalizing s with
  | nil => exact ⟨hs, hq, fun _ hy => hy⟩
  | cons op ops ih =>
    obtain ⟨hop, hops⟩ := forall_mem_cons.mp hw
    have hgoes := h.enqueue hs hq hk hop
    exact hgoes.after (ih hgoes.holds hgoes.waits hops)

theorem spill_cases (hs : s.spill k = .ok (t, e)) :
    t = s ∧ (e = none ∨ ∃ f x, s.module.function? k = some f ∧ Spill.demote f = .ok (.error x)) ∨
      ∃ f g n, s.module.function? k = some f ∧ Spill.demote f = .ok (.ok (g, n)) ∧ e = none ∧
        t = { s with module := s.module.setFunction k g }.addSpilled n := by
  unfold spill at hs
  split at hs
  · cases hs
    exact .inl ⟨rfl, .inl rfl⟩
  · next f hf =>
    obtain ⟨done, h₁, hs⟩ := bind_eq_ok.mp hs
    cases done with
    | error x =>
      cases hs
      exact .inl ⟨rfl, .inr ⟨f, x, hf, h₁⟩⟩
    | ok r =>
      cases hs
      exact .inr ⟨f, r.1, r.2, hf, h₁, rfl, rfl⟩

theorem queue_spill (hs : s.spill k = .ok (t, e)) : t.queue = s.queue := by
  rcases spill_cases hs with ⟨rfl, -⟩ | ⟨f, g, n, -, -, -, rfl⟩
  · rfl
  · rfl

theorem Steady.existingSite (h : Steady K F P) {name : String} {site : Option Site} (hs : P l s none)
    (hk : K k) (hr : s.existingSite k name = .ok ((t, e), site)) :
    P l t e ∧ t.queue = s.queue ∧ ∀ x, site = some x → F x k t.module := by
  unfold Rounds.existingSite at hr
  split at hr
  · cases hr
    exact ⟨hs, rfl, fun _ hx => nomatch hx⟩
  · next f hf =>
    obtain ⟨site', h₁, hr⟩ := bind_eq_ok.mp hr
    split at hr
    · cases hr
      exact ⟨hs, rfl, fun x hx => h.found hs hk hf (hx ▸ h₁)⟩
    · unfold spilledSite at hr
      obtain ⟨⟨s₁, e₁⟩, h₂, hr⟩ := bind_eq_ok.mp hr
      have hs₁ := h.spill hs hk h₂
      dsimp only at hr
      split at hr
      · next hf₁ =>
        obtain ⟨site'', h₃, hr⟩ := bind_eq_ok.mp hr
        cases hr
        refine ⟨hs₁, queue_spill h₂, fun x hx => ?_⟩
        rw [Option.filter_eq_some_iff] at hx
        exact h.found hs₁ hk hf₁ (hx.1 ▸ h₃)
      · cases hr
        exact ⟨hs₁, queue_spill h₂, fun _ hx => nomatch hx⟩

theorem Guarded.extendSite (h : Guarded K F W P) {site : Site} {ops : List OpId}
    (hs : P l s none) (hq : s.Waits K W) (hk : K k) (hsite : F site k s.module)
    (hw : ∀ op ∈ ops, W (k, op) s.module) (hr : extendSite site k ops s c = .ok (t, d)) :
    Goes K W P l s t none := by
  induction ops generalizing s c with
  | nil =>
    cases hr
    exact ⟨hs, hq, fun _ hy => hy⟩
  | cons op ops ih =>
    obtain ⟨hop, hops⟩ := forall_mem_cons.mp hw
    unfold Rounds.extendSite at hr
    split at hr
    · have hgoes := h.enqueue hs hq hk hop
      exact hgoes.after (ih hgoes.holds hgoes.waits hsite hops hr)
    · obtain ⟨⟨m, joined⟩, h₁, hr⟩ := bind_eq_ok.mp hr
      obtain ⟨hsite', hgood, hs'⟩ := h.extend hs hk hsite h₁
      have hops' : ∀ op ∈ ops, W (k, op) m := fun op ho => hgood _ (hops op ho)
      cases joined with
      | true =>
        have hgoes : Goes K W P l s { s with
            module := m
            count := { s.count with extended := s.count.extended + 1 } } none :=
          ⟨hs', hq.step rfl hgood, hgood⟩
        exact hgoes.after (ih hgoes.holds hgoes.waits hsite' hops' hr)
      | false =>
        have hgoes : Goes K W P l s { s with module := m } none := ⟨hs', hq.step rfl hgood, hgood⟩
        have hqueued := hgoes.after (h.enqueue hgoes.holds hgoes.waits hk (hgood _ hop))
        exact hqueued.after (ih hqueued.holds hqueued.waits hsite' hops' hr)

theorem Guarded.buildSite (h : Guarded K F W P) (hs : P l s none) (hq : s.Waits K W) (hk : K k)
    (hw : ∀ op ∈ g.calls, W (k, op) s.module)
    (hr : s.buildSite k g = .ok (t, c)) : Goes K W P l s t none := by
  obtain ⟨⟨m, site⟩, h₁, hr⟩ := bind_eq_ok.mp hr
  obtain ⟨hgood, hnew, hs'⟩ := h.build hs hk hw h₁
  cases site with
  | some site =>
    have hgoes : Goes K W P l s { s with
        module := m
        count := { s.count with fused := s.count.fused + 1 } } none :=
      ⟨hs', hq.step rfl hgood, hgood⟩
    cases hr
    cases hcall : site.call with
    | none => exact hgoes
    | some op => exact hgoes.after (h.enqueue hgoes.holds hgoes.waits hk (hnew site op rfl hcall))
  | none =>
    have hgoes : Goes K W P l s { s with module := m } none := ⟨hs', hq.step rfl hgood, hgood⟩
    cases hr
    exact hgoes.after (h.enqueues hgoes.holds hgoes.waits hk fun op ho => hgood _ (hw op ho))

theorem Guarded.fuseGroup (h : Guarded K F W P) (hs : P l s none) (hq : s.Waits K W) (hk : K k)
    (hw : ∀ op ∈ g.calls, W (k, op) s.module) (hr : s.fuseGroup k g = .ok ((t, e), c)) :
    Goes K W P l s t e := by
  unfold Rounds.fuseGroup at hr
  split at hr
  · next op hcalls =>
    cases hr
    exact h.enqueue hs hq hk (hw op (hcalls ▸ mem_singleton_self op))
  · split at hr
    · cases hr
      exact ⟨hs, hq, fun _ hy => hy⟩
    · obtain ⟨⟨⟨s₁, e₁⟩, site⟩, h₁, hr⟩ := bind_eq_ok.mp hr
      obtain ⟨⟨hs₁, hgood⟩, hqueue, hsite⟩ :=
        (h.steady s).existingSite ⟨hs, fun _ hy => hy⟩ hk h₁
      have hgoes : Goes K W P l s s₁ e₁ := ⟨hs₁, hq.step hqueue hgood, hgood⟩
      have hw₁ : ∀ op ∈ g.calls, W (k, op) s₁.module := fun op ho => hgood _ (hw op ho)
      dsimp only at hr
      split at hr
      · cases hr
        exact hgoes
      · obtain ⟨⟨s₂, c'⟩, h₂, hr⟩ := bind_eq_ok.mp hr
        cases hr
        exact hgoes.after (h.extendSite hs₁ hgoes.waits hk (hsite _ rfl) hw₁ h₂)
      · obtain ⟨⟨s₂, c'⟩, h₂, hr⟩ := bind_eq_ok.mp hr
        cases hr
        exact hgoes.after (h.buildSite hs₁ hgoes.waits hk hw₁ h₂)

theorem Guarded.fuseGroups (h : Guarded K F W P) {gs : List CallGroup} (hs : P l s none)
    (hq : s.Waits K W) (hk : K k) (hw : ∀ g ∈ gs, ∀ op ∈ g.calls, W (k, op) s.module)
    (hr : fuseGroups k gs s c = .ok ((t, e), d)) : Goes K W P l s t e := by
  induction gs generalizing s c with
  | nil =>
    cases hr
    exact ⟨hs, hq, fun _ hy => hy⟩
  | cons g gs ih =>
    obtain ⟨hg, hgs⟩ := forall_mem_cons.mp hw
    obtain ⟨⟨⟨s₁, e₁⟩, now⟩, h₁, hr⟩ := bind_eq_ok.mp hr
    have hgoes := h.fuseGroup hs hq hk hg h₁
    cases e₁ with
    | some e₁ =>
      cases hr
      exact hgoes
    | none =>
      exact hgoes.after (ih hgoes.holds hgoes.waits
        (fun g hg op ho => hgoes.good _ (hgs g hg op ho)) hr)

theorem Guarded.fuseCallers (h : Guarded K F W P) {cs : List CallerGroups} (hs : P l s none)
    (hq : s.Waits K W) (hk : ∀ c ∈ cs, K c.caller ∧ ∀ g ∈ c.groups, ∀ op ∈ g.calls,
      W (c.caller, op) s.module) (hr : fuseCallers cs s = .ok (t, e)) : Goes K W P l s t e := by
  induction cs generalizing s with
  | nil =>
    cases hr
    exact ⟨hs, hq, fun _ hy => hy⟩
  | cons c cs ih =>
    obtain ⟨⟨hc, hw⟩, hcs⟩ := forall_mem_cons.mp hk
    obtain ⟨⟨⟨s₁, e₁⟩, changed⟩, h₁, hr⟩ := bind_eq_ok.mp hr
    have hgoes := h.fuseGroups hs hq hc hw h₁
    have hrest : ∀ {u}, Goes K W P l s u none → fuseCallers cs u = .ok (t, e) →
        Goes K W P l s t e := fun hu hr => hu.after (ih hu.holds hu.waits (fun c' hc' =>
      ⟨(hcs c' hc').1, fun g hg op ho => hu.good _ ((hcs c' hc').2 g hg op ho)⟩) hr)
    cases e₁ with
    | some e₁ =>
      cases hr
      exact hgoes
    | none =>
      dsimp only at hr
      split at hr
      · obtain ⟨⟨s₂, e₂⟩, h₂, hr⟩ := bind_eq_ok.mp hr
        obtain ⟨hs₂, hgood⟩ := (h.steady s₁).spill ⟨hgoes.holds, fun _ hy => hy⟩ hc h₂
        have hgoes₂ : Goes K W P l s s₂ e₂ :=
          hgoes.after ⟨hs₂, hgoes.waits.step (queue_spill h₂) hgood, hgood⟩
        cases e₂ with
        | some e₂ =>
          cases hr
          exact hgoes₂
        | none => exact hrest hgoes₂ hr
      · exact hrest hgoes hr

theorem Guarded.fuseCandidates (h : Guarded K F W P) (hs : P l s none) (hq : s.Waits K W)
    (hr : s.fuseCandidates = .ok (t, e)) : Goes K W P l s t e :=
  h.fuseCallers hs hq (fun _ hg => h.caller hs hg) hr

theorem queue_inlineOne {op : OpId} (hr : s.inlineOne k op l = .ok (t, l')) :
    t.queue = s.queue ∧ ∀ j ∈ l', j ∈ l ∨ j = k := by
  obtain ⟨done, -, hr⟩ := bind_eq_ok.mp hr
  cases done with
  | error x =>
    cases hr
    exact ⟨rfl, fun j hj => .inl hj⟩
  | ok r =>
    obtain ⟨m, inlined⟩ := r
    dsimp only at hr
    split at hr
    · cases hr
      exact ⟨rfl, fun j hj => mem_addNew.mp hj⟩
    · obtain ⟨g, -, hr⟩ := bind_eq_ok.mp hr
      cases hr
      exact ⟨rfl, fun j hj => mem_addNew.mp hj⟩

theorem Guarded.inlineEach (h : Guarded K F W P) {calls : List (FuncId × OpId)} (hs : P l s none)
    (hc : ∀ y ∈ calls, K y.1 ∧ W y s.module) (hl : ∀ j ∈ l, K j)
    (hr : inlineEach calls s l = .ok (t, l')) :
    P l' t none ∧ t.queue = s.queue ∧ ∀ j ∈ l', K j := by
  induction calls generalizing s l with
  | nil =>
    cases hr
    exact ⟨hs, rfl, hl⟩
  | cons y calls ih =>
    obtain ⟨k, op⟩ := y
    obtain ⟨⟨hk, hw⟩, hc⟩ := forall_mem_cons.mp hc
    obtain ⟨⟨s₁, l₁⟩, h₁, hr⟩ := bind_eq_ok.mp hr
    obtain ⟨hqueue, hnew⟩ := queue_inlineOne h₁
    obtain ⟨hgood, hs₁⟩ := h.inline hs hk hw h₁
    have hl₁ : ∀ j ∈ l₁, K j := fun j hj => (hnew j hj).elim (hl j) fun he => he ▸ hk
    obtain ⟨hs', hq', hl'⟩ := ih hs₁ (fun y hy => ⟨(hc y hy).1, hgood y (hc y hy).2⟩) hl₁ hr
    exact ⟨hs', hq'.trans hqueue, hl'⟩

theorem Guarded.inlineQueued (h : Guarded K F W P) (hs : P [] s none) (hq : s.Waits K W)
    (hr : s.inlineQueued = .ok (t, l)) : P l t none ∧ t.queue = [] ∧ ∀ j ∈ l, K j :=
  h.inlineEach (h.queue [] hs) (fun y hy => hq y (mem_reverse.mp hy)) (fun _ hj => nomatch hj) hr

theorem spill_addMerged (n : Nat) (hs : s.spill k = .ok (t, e)) :
    (s.addMerged n).spill k = .ok (t.addMerged n, e) := by
  unfold spill at hs ⊢
  dsimp only [addMerged]
  split at hs
  · cases hs
    rfl
  · obtain ⟨done, h₁, hs⟩ := bind_eq_ok.mp hs
    refine bind_eq_ok.mpr ⟨done, h₁, ?_⟩
    cases done with
    | error x =>
      cases hs
      rfl
    | ok r =>
      cases hs
      rfl

theorem of_duplicatePair? {sites : List Site} {skipped : List (String × UInt64)} {keep other : Site}
    (h : duplicatePair? (sites.mergeSort siteLe) skipped = some (keep, other)) :
    keep ∈ sites ∧ other ∈ sites ∧ other.callee = keep.callee ∧ keep.ordinal < other.ordinal := by
  obtain ⟨a, ha, h⟩ := exists_of_findSome?_eq_some h
  split at h
  · cases h
  · split at h
    · cases h
    · next hfind =>
      split at h
      · next hlt =>
        cases h
        have hc : keep.callee = other.callee := by simpa using find?_some hfind
        exact ⟨mem_mergeSort.mp (mem_of_find?_eq_some hfind), mem_mergeSort.mp ha, hc.symm, hlt⟩
      · cases h

theorem Steady.mergeLoop (h : Steady K F P) {g g' : Merging} (hs : P l (s.addMerged g.merged) none)
    (hk : K k) (hr : mergeLoop k n s g = .ok ((t, e), g')) :
    t.queue = s.queue ∧ (e = none → P l (t.addMerged g'.merged) none) ∧
      ∀ x, e = some x → P l t (some x) := by
  induction n generalizing s g with
  | zero =>
    cases hr
    exact ⟨rfl, fun _ => hs, fun _ hx => nomatch hx⟩
  | succ n ih =>
    unfold Rounds.mergeLoop at hr
    split at hr
    · cases hr
      exact ⟨rfl, fun _ => hs, fun _ hx => nomatch hx⟩
    · next f hf =>
      obtain ⟨sites, hsites, hr⟩ := bind_eq_ok.mp hr
      split at hr
      · cases hr
        exact ⟨rfl, fun _ => hs, fun _ hx => nomatch hx⟩
      · next keep other hpair =>
        obtain ⟨hkeep, hother, -, -⟩ := of_duplicatePair? hpair
        split at hr
        · obtain ⟨⟨s₁, e₁⟩, h₁, hr⟩ := bind_eq_ok.mp hr
          have hs₁ := h.spill hs hk (spill_addMerged g.merged h₁)
          cases e₁ with
          | some x =>
            cases hr
            refine ⟨queue_spill h₁, (fun he => nomatch he), fun _ hx => ?_⟩
            cases hx
            exact h.stop hs₁
          | none =>
            obtain ⟨hqueue, hend⟩ := ih (g := { g with spilled := true }) hs₁ hr
            exact ⟨hqueue.trans (queue_spill h₁), hend⟩
        · obtain ⟨⟨f₁, done⟩, h₁, hr⟩ := bind_eq_ok.mp hr
          have hs₁ := h.merge hs hk hf hsites hkeep hother h₁
          cases done with
          | true =>
            refine ih (s := { s with module := s.module.setFunction k f₁ })
              (g := { g with merged := g.merged + 1 }) ?_ hr
            exact hs₁
          | false =>
            refine ih (s := { s with module := s.module.setFunction k f₁ })
              (g := { g with skipped := (other.callee, other.ordinal) :: g.skipped }) ?_ hr
            exact hs₁

theorem Steady.mergeSites (h : Steady K F P) (hs : P l s none) (hk : K k)
    (hr : s.mergeSites k = .ok (t, e)) : P l t e ∧ t.queue = s.queue := by
  unfold Rounds.mergeSites at hr
  split at hr
  · cases hr
    exact ⟨hs, rfl⟩
  · obtain ⟨⟨⟨s₁, e₁⟩, g⟩, h₁, hr⟩ := bind_eq_ok.mp hr
    obtain ⟨hqueue, hnone, hsome⟩ := h.mergeLoop (g := ⟨[], false, 0⟩) hs hk h₁
    cases e₁ with
    | some x =>
      cases hr
      exact ⟨hsome x rfl, hqueue⟩
    | none =>
      dsimp only at hr
      split at hr
      · exact ⟨h.spill (hnone rfl) hk hr, (queue_spill hr).trans hqueue⟩
      · next hm =>
        cases hr
        have hzero : g.merged = 0 := Nat.le_zero.mp (Nat.not_lt.mp hm)
        have ht := hnone rfl
        rw [hzero] at ht
        exact ⟨ht, hqueue⟩

theorem Steady.mergeEach (h : Steady K F P) {ks : List FuncId} (hs : P l s none)
    (hk : ∀ k ∈ ks, K k) (hr : mergeEach ks s = .ok (t, e)) : P l t e ∧ t.queue = s.queue := by
  induction ks generalizing s with
  | nil =>
    cases hr
    exact ⟨hs, rfl⟩
  | cons k ks ih =>
    obtain ⟨hk, hks⟩ := forall_mem_cons.mp hk
    obtain ⟨⟨s₁, e₁⟩, h₁, hr⟩ := bind_eq_ok.mp hr
    obtain ⟨hs₁, hqueue⟩ := h.mergeSites hs hk h₁
    cases e₁ with
    | some x =>
      cases hr
      exact ⟨hs₁, hqueue⟩
    | none =>
      obtain ⟨ht, hqueue'⟩ := ih hs₁ hks hr
      exact ⟨ht, hqueue'.trans hqueue⟩

theorem Guarded.loop (h : Guarded K F W P) (hs : P [] s none) (hq : s.Waits K W)
    (hr : loop n s = .ok (t, e)) : e = none ∧ P [] t none ∨ e ≠ none ∧ ∃ l, P l t e := by
  induction n generalizing s with
  | zero =>
    cases hr
    exact .inl ⟨rfl, h.queue [] hs⟩
  | succ n ih =>
    unfold Rounds.loop at hr
    split at hr
    · cases hr
      exact .inl ⟨rfl, hs⟩
    · obtain ⟨⟨s₁, l⟩, h₁, hr⟩ := bind_eq_ok.mp hr
      obtain ⟨⟨s₂, e₂⟩, h₂, hr⟩ := bind_eq_ok.mp hr
      obtain ⟨hs₁, hq₁, hl⟩ := h.inlineQueued hs hq h₁
      obtain ⟨⟨hs₂, -⟩, hqueue⟩ := (h.steady s₁).mergeEach ⟨hs₁, fun _ hy => hy⟩ hl h₂
      cases e₂ with
      | some x =>
        cases hr
        exact .inr ⟨Option.some_ne_none x, l, hs₂⟩
      | none =>
        obtain ⟨⟨s₃, e₃⟩, h₃, hr⟩ := bind_eq_ok.mp hr
        have hgoes := h.fuseCandidates hs₂ (fun y hy => by rw [hqueue, hq₁] at hy; cases hy) h₃
        cases e₃ with
        | some x =>
          cases hr
          exact .inr ⟨Option.some_ne_none x, l, hgoes.holds⟩
        | none => exact ih (h.round hgoes.holds) hgoes.waits hr

/-- The end of a run: blocks that cannot be reached and callees that are of no use any more go. -/
def finish (s : Rounds) : Rounds :=
  { s with module := removeDead s.module s.callers }.removeCallees

theorem Guarded.run (h : Guarded K F W P) (hs : P [] s none) (hq : s.Waits K W)
    (hr : s.run = .ok (t, e)) :
    (∃ u, e = none ∧ P [] u none ∧ t = u.finish) ∨ e ≠ none ∧ ∃ l, P l t e := by
  obtain ⟨⟨s₁, e₁⟩, h₁, hr⟩ := bind_eq_ok.mp hr
  have hgoes := h.fuseCandidates hs hq h₁
  cases e₁ with
  | some x =>
    cases hr
    exact .inr ⟨Option.some_ne_none x, [], hgoes.holds⟩
  | none =>
    obtain ⟨⟨s₂, e₂⟩, h₂, hr⟩ := bind_eq_ok.mp hr
    rcases h.loop (h.round hgoes.holds) hgoes.waits h₂ with ⟨rfl, hs₂⟩ | ⟨hne, l, hs₂⟩
    · cases hr
      exact .inl ⟨s₂, rfl, hs₂, rfl⟩
    · cases e₂ with
      | none => exact absurd rfl hne
      | some x =>
        cases hr
        exact .inr ⟨hne, l, hs₂⟩

end Rounds

end SiteFusion
