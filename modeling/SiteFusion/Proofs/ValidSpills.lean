import SiteFusion.Proofs.Scopes
import SiteFusion.Proofs.SpilledFunctions

namespace SiteFusion

open List Option

namespace Spill

variable {m : Module} {f g : Function} {d : Definition} {w : Reg} {l key : BlockId} {b b' : Block}
  {tail : BlockId → List Reg} {first : Bool} {i : Instruction}
  {is post pre : List (Operation Instruction)} {n : SpillCount} {o : Operation Instruction}
  {p : Operation Phi} {r : Reg}

/-- There are no allocations in a block, unless it is the first one, where they come before all
other instructions. -/
def Led (first : Bool) (is : List (Operation Instruction)) : Prop :=
  ∀ o ∈ if first then is.dropWhile (fun o => o.kind.isAlloca) else is, o.kind.isAlloca = false

instance (first : Bool) (is : List (Operation Instruction)) : Decidable (Led first is) :=
  inferInstanceAs (Decidable (∀ o ∈ _, _))

theorem Led.weaken (h : Led false is) (first : Bool) : Led first is := by
  intro o ho
  cases first
  · exact h o ho
  · exact h o ((dropWhile_suffix _).subset ho)

theorem led_cons_alloca (ho : o.kind.isAlloca = true) : Led true (o :: is) ↔ Led true is := by
  simp [Led, ho]

theorem led_cons_other (ho : o.kind.isAlloca = false) : Led first (o :: is) ↔ Led false is := by
  cases first <;> simp [Led, ho]

theorem Led.of_head (h : Led true is) (hhead : ∀ o ∈ is.head?, o.kind.isAlloca = false) :
    Led false is := by
  cases is with
  | nil => simp [Led]
  | cons o is =>
    have ho : o.kind.isAlloca = false := hhead o rfl
    rw [led_cons_other ho] at h ⊢
    exact h

theorem Led.append {is' : List (Operation Instruction)} (h : Led first is) (h' : Led false is') :
    Led first (is ++ is') := by
  induction is with
  | nil => exact h'.weaken first
  | cons o is ih =>
    cases ho : o.kind.isAlloca with
    | true =>
      cases first with
      | true =>
        rw [cons_append, led_cons_alloca ho]
        exact ih ((led_cons_alloca ho).mp h)
      | false =>
        have hne := h o (by simp)
        simp [ho] at hne
    | false =>
      rw [cons_append, led_cons_other ho]
      intro p hp
      rcases mem_append.mp hp with hp | hp
      · exact (led_cons_other ho).mp h p hp
      · exact h' p hp

theorem Led.split (h : Led first (pre ++ o :: post)) (ho : o.kind.isAlloca = false) :
    Led first pre ∧ Led false post := by
  induction pre generalizing first with
  | nil => exact ⟨Led.weaken (by simp [Led]) _, (led_cons_other ho).mp h⟩
  | cons p pre ih =>
    cases hp : p.kind.isAlloca with
    | true =>
      cases first with
      | true =>
        obtain ⟨hpre, hpost⟩ := ih ((led_cons_alloca hp).mp h)
        exact ⟨(led_cons_alloca hp).mpr hpre, hpost⟩
      | false =>
        have hne := h p (by simp)
        simp [hp] at hne
    | false =>
      obtain ⟨hpre, hpost⟩ := ih ((led_cons_other hp).mp h)
      exact ⟨(led_cons_other hp).mpr hpre, hpost⟩

theorem Led.mem_before {a : Operation Instruction} (h : Led first (pre ++ o :: post))
    (ho : o.kind.isAlloca = false) (ha : a ∈ pre ++ o :: post) (hcell : a.kind.isAlloca = true) :
    first = true ∧ a ∈ pre := by
  have hfirst : first = true := by
    cases first
    · have hne := h a ha
      simp [hcell] at hne
    · rfl
  subst hfirst
  refine ⟨rfl, ?_⟩
  induction pre with
  | nil =>
    rw [nil_append] at h ha
    rcases mem_cons.mp ha with rfl | ha
    · simp [ho] at hcell
    · have hne := (led_cons_other ho).mp h a ha
      simp [hcell] at hne
  | cons p pre ih =>
    rcases mem_cons.mp ha with rfl | ha
    · simp
    · refine mem_cons_of_mem _ (ih ha ?_)
      cases hp : p.kind.isAlloca with
      | true => exact (led_cons_alloca hp).mp h
      | false => exact ((led_cons_other hp).mp h).weaken _

theorem isAlloca_of_told {tags : Tags} (h : o.told = (i, tags)) : o.kind.isAlloca = i.isAlloca := by
  rw [(Operation.told_eq.mp h).1]

theorem led_of_told {es : List (Instruction × Tags)} (h : is.map Operation.told = es)
    (hes : ∀ e ∈ es, e.1.isAlloca = false) : Led false is := by
  intro o ho
  have hm : o.told ∈ es := h ▸ List.mem_map_of_mem ho
  exact hes _ hm

theorem Spills.led {stored here : Bool} {tail : List Reg} {r r' : List (Operation Instruction)}
    (h : Spills d w stored tail here r r') (hr : Led here r) : Led here r' := by
  induction h with
  | done hloads _ =>
    refine led_of_told hloads fun e he => ?_
    obtain ⟨v, -, rfl⟩ := List.mem_map.mp he
    rfl
  | @keep here o r r' hh _ _ ih =>
    cases ho : o.kind.isAlloca with
    | true =>
      cases here with
      | true => exact (led_cons_alloca ho).mpr (ih ((led_cons_alloca ho).mp hr))
      | false =>
        have hne := hr o (by simp)
        simp [ho] at hne
    | false =>
      cases here with
      | true =>
        have hne := hh rfl
        simp [ho] at hne
      | false => exact (led_cons_other ho).mpr (ih ((led_cons_other ho).mp hr))
  | slot ho hhead _ ih =>
    exact (led_cons_alloca (isAlloca_of_told ho)).mpr ((ih (hr.of_head hhead)).weaken _)
  | @reload o load v r r' _ hl _ _ ih =>
    have ho : o.kind.isAlloca = false := hr o (by simp)
    refine (led_cons_other (isAlloca_of_told hl)).mpr ((led_cons_other ?_).mpr ?_)
    · exact (Instruction.isAlloca_replaceUse _ _ _).trans ho
    · exact ih ((led_cons_other ho).mp hr)
  | @define o store r r' _ _ hs _ ih =>
    have ho : o.kind.isAlloca = false := hr o (by simp)
    exact (led_cons_other ho).mpr ((led_cons_other (isAlloca_of_told hs)).mpr
      (ih ((led_cons_other ho).mp hr)))

/-- Cells are allocated first of all, and nothing is expected of blocks before the entry block. -/
def AllocatesFirst (f : Function) : Prop :=
  ∀ k b, f.graph.block? k = some b → Led (decide (k = f.graph.entry)) b.instructions ∧
    (k = f.graph.entry → b.phis = [])

theorem Moved.allocatesFirst (h : Moved f d w tail g) (hf : AllocatesFirst f) :
    AllocatesFirst g := by
  intro k b' hb'
  have hentry : g.graph.entry = f.graph.entry := congrArg Header.entry h.header
  obtain ⟨b, hb, s, hs, hstore⟩ := rel_some_right (h.block k) hb'
  obtain ⟨hled, hphis⟩ := hf k b hb
  have hleds := hs.instructions.led hled
  rw [hentry]
  split at hstore
  · next hd =>
    obtain ⟨store, htold, rfl⟩ := hstore
    have hne : k ≠ f.graph.entry := by
      intro hk
      rw [hphis hk] at hd
      cases hd
    refine ⟨?_, fun hk => absurd hk hne⟩
    rw [decide_eq_false hne] at hleds ⊢
    exact (led_cons_other (isAlloca_of_told htold)).mpr hleds
  · subst hstore
    refine ⟨hleds, fun hk => ?_⟩
    have hp := hs.phis
    rw [hphis hk] at hp
    exact forall₂_nil_left_iff.mp hp

theorem led_withSlot {slot : Operation Instruction} (hslot : slot.kind.isAlloca = true)
    (entry : BlockId) (hb : Led (decide (l = entry)) b.instructions) :
    Led (decide (l = entry)) (withSlot b l entry slot) := by
  unfold withSlot
  split
  · next hl =>
    rw [decide_eq_true hl] at hb ⊢
    rw [b.take_allocaCount, b.drop_allocaCount]
    have hall : ∀ o ∈ b.instructions.takeWhile fun o => o.kind.isAlloca, o.kind.isAlloca = true :=
      fun o ho => mem_takeWhile_imp (p := fun o : Operation Instruction => o.kind.isAlloca) ho
    have hrest : Led true (slot :: b.instructions.dropWhile fun o => o.kind.isAlloca) := by
      rw [led_cons_alloca hslot]
      intro o ho
      exact hb o ((dropWhile_suffix _).subset ho)
    generalize b.instructions.takeWhile (fun o => o.kind.isAlloca) = as at hall
    induction as with
    | nil => exact hrest
    | cons a as ih =>
      rw [cons_append, led_cons_alloca (hall a (by simp))]
      exact ih fun o ho => hall o (mem_cons_of_mem _ ho)
  · exact hb

theorem Dropped.allocatesFirst {index : Nat} (h : Dropped f key index p w g)
    (hb : f.graph.block? key = some b) (hp : b.phis[index]? = some p) (hf : AllocatesFirst f) :
    AllocatesFirst g := by
  intro k b' hb'
  have hentry : g.graph.entry = f.graph.entry := congrArg Header.entry h.header
  have hkey : key ≠ f.graph.entry := by
    intro hk
    rw [(hf key b hb).2 hk] at hp
    cases hp
  obtain ⟨slot, load, stores, hslot, hload, hstores, hblocks⟩ := h.blocks
  rw [hblocks] at hb'
  obtain ⟨s, hs, rfl⟩ := map_eq_some_iff.mp hb'
  obtain ⟨hled, hphis⟩ := hf k s hs
  have hlast : Led false (stores k) := by
    refine led_of_told (hstores k) fun e he => ?_
    unfold lastStore at he
    split at he
    · cases he
    · rw [mem_singleton.mp he]
      rfl
  rw [hentry]
  refine ⟨?_, fun hk => ?_⟩
  · have hwith := (led_withSlot (isAlloca_of_told hslot) f.graph.entry hled).append hlast
    dsimp only [unphied]
    split
    · next hk =>
      have hne : k ≠ f.graph.entry := hk ▸ hkey
      rw [decide_eq_false hne] at hwith ⊢
      rw [append_assoc, singleton_append]
      exact (led_cons_other (isAlloca_of_told hload)).mpr hwith
    · rwa [nil_append]
  · have hne : k ≠ key := fun he => hkey (he ▸ hk)
    simp [unphied, hne, hphis hk]

theorem demote_allocatesFirst (hn : f.Numbered) (hf : AllocatesFirst f)
    (hg : demote f = .ok (.ok (g, n))) : AllocatesFirst g := by
  unfold demote at hg
  split at hg
  · cases hg
  · obtain ⟨f₁, h₁, hg⟩ := bind_eq_ok.mp hg
    obtain ⟨⟨f₂, phis⟩, h₂, hg⟩ := bind_eq_ok.mp hg
    cases hg
    have hn₁ := ((demoteValues_spare (Function.numbered_iff.mp hn) h₁).numbered trivial trivial).1
    have hf₁ : AllocatesFirst f₁ := demoteValues_induction (Q := fun _ => AllocatesFirst)
      (fun hQ _ _ _ hm => hm.allocatesFirst hQ) hn
      (fun d hd => Definition.in_of_mem hn (definitions_of_escaping hd)) hf h₁
    exact demotePhis_induction (fun hQ _ _ hb hp hm => hm.allocatesFirst hb hp hQ) hn₁ hf₁ h₂

/-- A call fits the function that it is meant for. -/
def CallFits (m : Module) (i : Instruction) : Prop :=
  ∀ dest callee args, i = .call dest callee args → ∃ h, m.function? callee = some h ∧
    h.signature.accepts args.length = true ∧ (dest.isSome = true → h.returnsValue = true)

/-- A block in which nothing is wrong, but that control may come to it without the definitions of
what it reads. -/
structure Mends (m : Module) (there : BlockId → Prop) (known : Reg → Prop) (first value : Bool)
    (b : Block) : Prop where
  edges : ∀ t ∈ b.successors, there t
  known : ∀ r ∈ b.uses, known r
  order : ∀ {pre o post}, b.instructions = pre ++ o :: post → ∀ r ∈ o.kind.uses,
    r ∉ dests (o :: post)
  led : Led first b.instructions
  phis : first = true → b.phis = []
  calls : ∀ o ∈ b.instructions, CallFits m o.kind
  returns : ∀ {v}, b.terminator.kind = .ret v → v.isSome = value

theorem Mends.mono {there there' : BlockId → Prop} {known known' : Reg → Prop} {value : Bool}
    (h : Mends m there known first value b) (ht : ∀ t, there t → there' t)
    (hk : ∀ r, known r → known' r) : Mends m there' known' first value b :=
  ⟨fun t hbt => ht t (h.edges t hbt), fun r hr => hk r (h.known r hr), h.order, h.led, h.phis,
    h.calls, h.returns⟩

/-- A function with such blocks. Registers that are `free` have no definition yet. -/
structure Mendable (m : Module) (free : Reg → Prop) (f : Function) : Prop where
  entry : (f.graph.block? f.graph.entry).isSome
  block : ∀ {k b}, f.graph.block? k = some b →
    Mends m (fun t => t ≠ f.graph.entry ∧ (f.graph.block? t).isSome) (fun r => r ∈ f.defs ∨ free r)
      (decide (k = f.graph.entry)) f.returnsValue b

theorem mem_uses_instruction (ho : o ∈ b.instructions) (hr : r ∈ o.kind.uses) : r ∈ b.uses :=
  mem_append_left _ (mem_append_right _ (mem_flatMap.mpr ⟨o, ho, hr⟩))

theorem mem_uses_phi {a : BlockId} (hp : p ∈ b.phis) (hr : (a, .reg r) ∈ p.kind.incoming) :
    r ∈ b.uses :=
  mem_append_left _ (mem_append_left _
    (mem_flatMap.mpr ⟨p, hp, mem_filterMap.mpr ⟨(a, .reg r), hr, rfl⟩⟩))

/-- A register with a definition is a parameter, or it is defined in a given block, or it is a cell
or a value of another block. -/
theorem cases_defs (hn : f.Numbered) (hr : r ∈ f.defs) (l : BlockId) :
    f.isParam r = true ∨ (∃ b, f.graph.block? l = some b ∧ r ∈ b.defs) ∨ f.Allocates r ∨
      ∃ d ∈ definitions f, d.reg = r ∧ d.block ≠ l := by
  rcases local_or_definition hn (hn.defBound r hr) l with (hp | ⟨hnot, -⟩ | hb) | hrest
  · exact .inl hp
  · exact absurd hr hnot
  · exact .inr (.inl hb)
  · exact .inr (.inr hrest)

namespace Mendable

theorem settled (h : Mendable m (fun _ => False) f) (hn : f.Numbered) :
    Settled (fun _ r => f.isParam r = true) (escaping f) f := by
  have hdefs : ∀ {k b}, f.graph.block? k = some b → ∀ r ∈ b.uses, r ∈ f.defs :=
    fun hb r hr => ((h.block hb).known r hr).resolve_right id
  refine Settled.start hn ?_ ?_ ?_
  · intro l b hb pre o post hsplit r hr
    have ho : o ∈ b.instructions := by simp [hsplit]
    rcases cases_defs hn (hdefs hb r (mem_uses_instruction ho hr)) l with hp | ⟨s, hs, hm⟩ | hcell | hd
    · exact .inl (.given hp)
    · rw [hb] at hs
      cases hs
      have horder := (h.block hb).order hsplit r hr
      rw [Block.defs, hsplit, filterMap_append, ← append_assoc] at hm
      exact .inl (.here ((mem_append.mp hm).resolve_right horder))
    · exact .inl (.cell hcell)
    · exact .inr hd
  · intro l b hb r hr
    rcases cases_defs hn (hdefs hb r (mem_append_right _ hr)) l with hp | ⟨s, hs, hm⟩ | hcell | hd
    · exact .inl (.given hp)
    · rw [hb] at hs
      cases hs
      exact .inl (.here hm)
    · exact .inl (.cell hcell)
    · exact .inr hd
  · intro l b hb p hp a r hra s hs
    rcases cases_defs hn (hdefs hb r (mem_uses_phi hp hra)) a with hp | ⟨s', hs', hm⟩ | hcell | hd
    · exact .inl (.given hp)
    · rw [hs] at hs'
      cases hs'
      exact .inl (.here hm)
    · exact .inl (.cell hcell)
    · exact .inr (hd.imp fun d hd => ⟨hd.1, hd.2.1⟩)

theorem fault?_eq_none {free : Reg → Prop} (h : Mendable m free f) : fault? f = none :=
  fault?_eq_none_iff.mpr ⟨h.entry, fun _ _ hb ht => ((h.block hb).edges _ ht).1 rfl⟩

theorem allocatesFirst {free : Reg → Prop} (h : Mendable m free f) : AllocatesFirst f :=
  fun _ _ hb => ⟨(h.block hb).led, fun hk => (h.block hb).phis (decide_eq_true hk)⟩

end Mendable

theorem not_isAlloca_of_mem_uses (h : r ∈ i.uses) : i.isAlloca = false := by
  cases hi : i.isAlloca with
  | false => rfl
  | true =>
    rw [uses_of_isAlloca hi] at h
    cases h

theorem visible_of_readable {before : List Reg} (hg : AllocatesFirst g)
    (hr : Readable (fun _ r => g.isParam r = true) g [] l before r)
    (hcell : ∀ b, g.graph.block? l = some b → l = g.graph.entry → ∀ o ∈ b.instructions,
      ∀ ty, o.kind = .alloca r ty → r ∈ before) : g.proc.Visible l before r := by
  cases hr with
  | here h => exact .here h
  | given h => exact .param (mem_params_iff.mp h)
  | later hd => cases hd
  | cell h =>
    obtain ⟨o, ho, ty, hkind⟩ := h
    obtain ⟨k, b, hb, ho⟩ := Function.mem_instructions.mp ho
    have hk : k = g.graph.entry := by
      by_contra hne
      have hled := (hg k b hb).1
      rw [decide_eq_false hne] at hled
      have hno := hled o ho
      rw [hkind] at hno
      cases hno
    by_cases hl : l = k
    · subst hl
      exact .here (hcell b hb hk o ho ty hkind)
    · have hdef : r ∈ b.code.defs := by
        rw [Block.defs_code]
        exact mem_append_right _ (mem_filterMap.mpr ⟨o, ho, by rw [hkind]; rfl⟩)
      refine .above (Ne.symm hl) (Function.code_eq_some.mpr ⟨b, hb, rfl⟩) hdef fun ks hw => ?_
      rw [hk]
      exact hw.entry_mem

theorem Serves.callee?_eq_none {s : Reg} {phi : Bool} (h : Serves d s phi i) :
    i.callee? = none := by
  cases h <;> rfl

theorem CallFits.of_callee (h : i.callee? = none) : CallFits m i := by
  rintro dest callee args rfl
  cases h

theorem CallFits.mapOperands (h : CallFits m i) (φ : Operand → Operand) :
    CallFits m (i.mapOperands φ) := by
  intro dest callee args hi
  cases i <;> try cases hi
  obtain ⟨t, ht, hargs, hdest⟩ := h _ _ _ rfl
  exact ⟨t, ht, by rwa [length_map], hdest⟩

theorem Mendable.valid (h : Mendable m (fun _ => False) f) (hn : f.Numbered)
    (htrap : ∀ t, f.trap = some t → ∃ b, f.graph.block? t = some b ∧
      b.terminator.kind = .unreachable) (hg : demote f = .ok (.ok (g, n))) : g.Valid m := by
  obtain ⟨done, owner, hp, hs, hbare⟩ := demote_progress hn (h.settled hn) hg
  have hfirst := demote_allocatesFirst hn h.allocatesFirst hg
  have hentry : g.graph.entry = f.graph.entry := congrArg Header.entry hp.grown.header
  have hsig : g.signature = f.signature := congrArg Header.signature hp.grown.header
  have hparam : (fun (_ : BlockId) r => f.isParam r = true) = fun _ r => g.isParam r = true := by
    simp only [Function.isParam, hsig]
  rw [hparam] at hs
  have hsome : ∀ k, (f.graph.block? k).isSome → (g.graph.block? k).isSome := by
    intro k hk
    obtain ⟨b, hb⟩ := isSome_iff_exists.mp hk
    obtain ⟨b', hb', -⟩ := rel_some (hp.grown.block k) hb
    rw [hb']
    rfl
  have hedge : ∀ {a k}, g.proc.Edge a k → k ≠ f.graph.entry ∧ (f.graph.block? k).isSome := by
    rintro a k ⟨c, hc, hk⟩
    obtain ⟨b', hb', rfl⟩ := Function.code_eq_some.mp hc
    obtain ⟨b, hb, hext⟩ := rel_some_right (hp.grown.block a) hb'
    refine (h.block hb).edges k ?_
    rw [Block.successors, ← hext.exit.successors]
    exact hk
  have hphis : ∀ {k c}, g.proc.code k = some c → c.phis = [] := by
    intro k c hc
    obtain ⟨b, hb, rfl⟩ := Function.code_eq_some.mp hc
    rw [Block.code, hbare k b hb, map_nil]
  constructor
  case connected =>
    constructor
    case entry => exact Function.isSome_code.mpr (hsome g.graph.entry (hentry ▸ h.entry))
    case root => exact fun k he => (hedge he).1 hentry
    case target => exact fun he => Function.isSome_code.mpr (hsome _ (hedge he).2)
    case once =>
      intro k c hc q hq
      rw [hphis hc] at hq
      cases hq
    case source =>
      intro k c hc q hq
      rw [hphis hc] at hq
      cases hq
  case scopes =>
    constructor
    case incoming =>
      intro k c hc q hq
      rw [hphis hc] at hq
      cases hq
    case body =>
      intro k c hc pre i post hsplit r hr
      obtain ⟨b, hb, rfl⟩ := Function.code_eq_some.mp hc
      obtain ⟨pre', rest, hinsts, rfl, hrest⟩ := map_eq_append_iff.mp hsplit
      obtain ⟨o, post', rfl, rfl, rfl⟩ := map_eq_cons_iff.mp hrest
      have hdests : (pre'.map Operation.kind).filterMap Instruction.dest? = dests pre' := by
        rw [filterMap_map]
        rfl
      rw [hdests, show b.code.phis.map Phi.dest = b.phis.map fun p => p.kind.dest from
        List.map_map]
      refine visible_of_readable hfirst (hs.body hb hinsts r hr) fun b' hb' _ a ha ty hkind => ?_
      rw [hb] at hb'
      cases hb'
      -- allocations come before everything that reads a register
      have hled := (hfirst k b hb).1
      rw [hinsts] at hled ha
      have hm := (hled.mem_before (not_isAlloca_of_mem_uses hr) ha (by rw [hkind]; rfl)).2
      exact mem_append_right _ (mem_filterMap.mpr ⟨a, hm, by rw [hkind]; rfl⟩)
    case exit =>
      intro k c hc r hr
      obtain ⟨b, hb, rfl⟩ := Function.code_eq_some.mp hc
      rw [Block.defs_code]
      refine visible_of_readable hfirst (hs.exit hb r hr) fun b' hb' _ a ha ty hkind => ?_
      rw [hb] at hb'
      cases hb'
      exact mem_append_right _ (mem_filterMap.mpr ⟨a, ha, by rw [hkind]; rfl⟩)
  case ops => exact hp.numbered.opOnce
  case defs => exact hp.numbered.defOnce
  case trap =>
    intro t ht
    rw [hp.grown.trap] at ht
    obtain ⟨b, hb, hk⟩ := htrap t ht
    obtain ⟨b', hb', hext⟩ := rel_some (hp.grown.block t) hb
    obtain ⟨φ, -, hkind⟩ := hext.exit.kind
    refine ⟨b'.code, Function.code_eq_some.mpr ⟨b', hb', rfl⟩, ?_⟩
    rw [Block.code, hkind, hk]
    rfl
  case calls =>
    intro k c hc dest callee args hi
    obtain ⟨b', hb', rfl⟩ := Function.code_eq_some.mp hc
    obtain ⟨o, ho, hkind⟩ := List.mem_map.mp hi
    obtain ⟨b, hb, hext⟩ := rel_some_right (hp.grown.block k) hb'
    have hfits : CallFits m o.kind := by
      rcases hext.instructions.cases_mem ho with ⟨s, d, phi, -, hserves, -⟩ | ⟨q, hq, hc⟩
      · exact .of_callee hserves.callee?_eq_none
      · obtain ⟨φ, -, hφ⟩ := hc.kind
        rw [hφ]
        exact ((h.block hb).calls q hq).mapOperands φ
    exact hfits _ _ _ hkind
  case returns =>
    intro k c hc v hv
    obtain ⟨b', hb', rfl⟩ := Function.code_eq_some.mp hc
    obtain ⟨b, hb, hext⟩ := rel_some_right (hp.grown.block k) hb'
    obtain ⟨φ, -, hkind⟩ := hext.exit.kind
    have hv' : b.terminator.kind.mapOperands φ = .ret v := hkind.symm.trans hv
    rw [Function.returnsValue, hsig]
    cases ht : b.terminator.kind with
    | ret v₀ =>
      have hr := (h.block hb).returns ht
      rw [ht] at hv'
      cases hv'
      simpa [Function.returnsValue] using hr
    | _ =>
      rw [ht] at hv'
      cases hv'

end Spill

end SiteFusion
