import SiteFusion.Proofs.RelocatedGlobals
import SiteFusion.Proofs.SpillBlocks
import SiteFusion.Proofs.ValidInlining

namespace SiteFusion

open List Option

open Inline

namespace Proc

def Slot (q : Proc) (s : Reg) : Prop := ∃ ty, .alloca s ty ∈ q.allocas

/-- A way from the entry into a block: what was done on it, the last first, and what is left of the
block. -/
inductive Path (q : Proc) : List Instruction → BlockId → List Instruction → Prop
  | start {c : Code} (hc : q.code q.entry = some c) : Path q [] q.entry c.body
  | step {done rest : List Instruction} {l : BlockId} {i : Instruction}
      (h : Path q done l (i :: rest)) : Path q (i :: done) l rest
  | jump {done : List Instruction} {l l' : BlockId} {c : Code} (h : Path q done l [])
      (he : q.Edge l l') (hc : q.code l' = some c) : Path q done l' c.body

/-- Slots are used to load and to store only, and on every way a slot is stored before it is
loaded. -/
structure Scratch (q : Proc) : Prop where
  phis : ∀ {l c}, q.code l = some c → ∀ x ∈ c.phis, ∀ s ∈ x.uses, ¬ q.Slot s
  body : ∀ {l c}, q.code l = some c → ∀ i ∈ c.body, ∀ s ∈ i.uses, q.Slot s →
    (∃ d ty, i = .load d (.reg s) ty) ∨ ∃ v, i = .store (.reg s) v ∧ v ≠ .reg s
  exit : ∀ {l c}, q.code l = some c → ∀ s ∈ c.exit.uses, ¬ q.Slot s
  stored : ∀ {done l d s ty rest}, q.Path done l (.load d (.reg s) ty :: rest) → q.Slot s →
    ∃ v, .store (.reg s) v ∈ done

/-- Every register is defined once. -/
structure Distinct (q : Proc) : Prop where
  block : ∀ {l c}, q.code l = some c → c.defs.Nodup
  apart : ∀ {l l' c c'}, q.code l = some c → q.code l' = some c' → ∀ r ∈ c.defs, r ∈ c'.defs → l = l'
  param : ∀ r ∈ q.params, ¬ q.Defines r

variable {q : Proc} {l : BlockId} {c : Code} {i : Instruction} {s : Reg}

theorem mem_allocas : i ∈ q.allocas ↔ ∃ c, q.code q.entry = some c ∧ i ∈ c.body ∧ i.isAlloca = true := by
  unfold allocas
  cases q.code q.entry with
  | none => simp
  | some c => simp [Code.allocas, mem_filter]

theorem defines_of_mem (hc : q.code l = some c) (hi : i ∈ c.body) (hd : i.dest? = some s) :
    q.Defines s :=
  ⟨l, c, hc, mem_append_right _ (mem_filterMap.mpr ⟨i, hi, hd⟩)⟩

theorem Slot.defines (h : q.Slot s) : q.Defines s := by
  obtain ⟨ty, h⟩ := h
  obtain ⟨c, hc, hi, -⟩ := mem_allocas.mp h
  exact defines_of_mem hc hi rfl

theorem slot_of_isAlloca (hc : q.code q.entry = some c) (hi : i ∈ c.body) (ha : i.isAlloca = true) :
    ∃ s ty, i = .alloca s ty ∧ q.Slot s := by
  cases i with
  | alloca s ty => exact ⟨s, ty, rfl, ty, mem_allocas.mpr ⟨c, hc, hi, ha⟩⟩
  | _ => cases ha

theorem Path.entry (hroot : ∀ k, ¬ q.Edge k q.entry) (hc : q.code q.entry = some c)
    {done rest : List Instruction} (h : q.Path done l rest) :
    (l = q.entry ∧ c.body = done.reverse ++ rest) ∨ (l ≠ q.entry ∧ c.body ⊆ done) := by
  induction h with
  | start hc' =>
    cases hc.symm.trans hc'
    exact .inl ⟨rfl, rfl⟩
  | step _ ih =>
    rcases ih with ⟨hl, hbody⟩ | ⟨hl, hsub⟩
    · exact .inl ⟨hl, by simpa using hbody⟩
    · exact .inr ⟨hl, List.Subset.trans hsub (subset_cons_self _ _)⟩
  | @jump _ l _ _ _ he _ ih =>
    refine .inr ⟨fun hl => hroot l (hl ▸ he), ?_⟩
    rcases ih with ⟨-, hbody⟩ | ⟨-, hsub⟩
    · rw [hbody, append_nil]
      exact (reverse_perm _).subset
    · exact hsub

theorem stored_of_entry (hroot : ∀ k, ¬ q.Edge k q.entry) (hc : q.code q.entry = some c)
    (hload : ∀ d ty, .load d (.reg s) ty ∉ c.body) {v : Operand} (hstore : .store (.reg s) v ∈ c.body)
    {done rest : List Instruction} {d : Reg} {ty : Ty}
    (h : q.Path done l (.load d (.reg s) ty :: rest)) : .store (.reg s) v ∈ done := by
  rcases h.entry hroot hc with ⟨-, hbody⟩ | ⟨-, hsub⟩
  · exact absurd (hbody ▸ mem_append_right _ mem_cons_self) (hload d ty)
  · exact hsub hstore

theorem Distinct.isAlloca_of_slot (h : q.Distinct) (hc : q.code l = some c) (hi : i ∈ c.body)
    (hd : i.dest? = some s) (hs : q.Slot s) : l = q.entry ∧ i.isAlloca = true := by
  obtain ⟨ty, hs⟩ := hs
  obtain ⟨c₀, hc₀, hi₀, -⟩ := mem_allocas.mp hs
  have hmem : ∀ {c : Code} {i : Instruction}, i ∈ c.body → i.dest? = some s → s ∈ c.defs :=
    fun hi hd => mem_append_right _ (mem_filterMap.mpr ⟨_, hi, hd⟩)
  obtain rfl := h.apart hc hc₀ s (hmem hi hd) (hmem hi₀ rfl)
  cases hc.symm.trans hc₀
  refine ⟨rfl, ?_⟩
  by_contra ha
  have hne : i ≠ .alloca s ty := by
    rintro rfl
    exact ha rfl
  have hpair := pairwise_filterMap.mp (nodup_append.mp (h.block hc)).2.1
  have hsymm : Std.Symm fun i j : Instruction =>
      ∀ x, i.dest? = some x → ∀ y, j.dest? = some y → x ≠ y :=
    ⟨fun _ _ hab x hx y hy he => hab y hy x hx he.symm⟩
  exact hpair.forall hi hi₀ hne s hd s rfl rfl

theorem Distinct.not_slot_of_phi (h : q.Distinct) (hc : q.code l = some c) {x : Phi}
    (hx : x ∈ c.phis) : ¬ q.Slot x.dest := by
  rintro ⟨ty, hs⟩
  obtain ⟨c₀, hc₀, hi₀, -⟩ := mem_allocas.mp hs
  have hphi : x.dest ∈ c.phis.map Phi.dest := List.mem_map_of_mem hx
  have hbody : x.dest ∈ c₀.body.filterMap Instruction.dest? := mem_filterMap.mpr ⟨_, hi₀, rfl⟩
  obtain rfl := h.apart hc hc₀ _ (mem_append_left _ hphi) (mem_append_right _ hbody)
  cases hc.symm.trans hc₀
  exact (nodup_append.mp (h.block hc)).2.2 _ hphi _ hbody rfl

theorem Distinct.not_alloca_below (h : q.Distinct) (hc : q.code l = some c) {rest : List Instruction}
    (hr : i :: rest <:+ c.body) {ty : Ty} (hs : .alloca s ty ∈ rest) : i.dest? ≠ some s := by
  intro hd
  have hsub : ((i :: rest).filterMap Instruction.dest?).Nodup :=
    (nodup_append.mp (h.block hc)).2.1.sublist (hr.sublist.filterMap _)
  rw [filterMap_cons, hd] at hsub
  exact (nodup_cons.mp hsub).1 (mem_filterMap.mpr ⟨_, hs, rfl⟩)

end Proc

theorem Function.Numbered.distinct {f : Function} (h : f.Numbered) : f.proc.Distinct := by
  have hdefs : ∀ {l c}, f.proc.code l = some c → ∃ b, f.graph.block? l = some b ∧ b.defs = c.defs := by
    intro l c hc
    obtain ⟨b, hb, rfl⟩ := Function.code_eq_some.mp hc
    exact ⟨b, hb, b.defs_code.symm⟩
  constructor
  case block =>
    intro l c hc
    obtain ⟨b, hb, he⟩ := hdefs hc
    exact he ▸ h.defOnce.sublist (Spill.defs_sublist_of_block hb)
  case apart =>
    intro l l' c c' hc hc' r hr hr'
    obtain ⟨b, hb, he⟩ := hdefs hc
    obtain ⟨b', hb', he'⟩ := hdefs hc'
    exact Spill.key_of_mem_defs h hb hb' (he ▸ hr) (he' ▸ hr')
  case param =>
    rintro r hr ⟨l, c, hc, hdef⟩
    obtain ⟨b, hb, he⟩ := hdefs hc
    exact (nodup_append.mp h.defOnce).2.2 r hr r
      (Table.mem_flatMap_values.mpr ⟨l, b, hb, he ▸ hdef⟩) rfl

/-- What a cell is for: the number of frames below the one it belongs to, the register that points to
it, and what it holds. -/
structure Entry where
  frame : Nat
  reg : Reg
  value : Value

abbrev Ledger := Nat → Option Entry

namespace Ledger

variable {A B A' : Ledger} {n m : Nat} {ι : Placing} {small large : Array Value} {c : Nat}
  {e : Entry}

def Pairs (A B : Ledger) : Pairing := .Private (fun e v => v = e.value) A B

def Keeps (n : Nat) (A A' : Ledger) : Prop := ∀ c e, A c = some e → e.frame < n → A' c = some e

theorem Keeps.refl (n : Nat) (A : Ledger) : A.Keeps n A := fun _ _ h _ => h

theorem Keeps.mono (h : A.Keeps n A') (hm : m ≤ n) : A.Keeps m A' :=
  fun c e hc hlt => h c e hc (Nat.lt_of_lt_of_le hlt hm)

theorem keeps_update (h : ∀ e, A c = some e → n ≤ e.frame) (x : Option Entry) :
    A.Keeps n (Function.update A c x) := by
  intro c' e he hlt
  have hne : c' ≠ c := by
    rintro rfl
    exact Nat.not_lt.mpr (h e he) hlt
  rw [Function.update_of_ne hne, he]

theorem Pairs.pushHere (h : A.Pairs B ι small large) (e : Entry) :
    A small.size = none ∧
      Pairs (Function.update A small.size (some e)) B ι (small.push e.value) large := by
  have hnone : A small.size = none := Option.eq_none_iff_forall_ne_some.mpr fun x hx =>
    Nat.lt_irrefl _ (h.here _ x hx).2.lt
  refine ⟨hnone, h.shared.pushLeft _, fun c x hc => ?_, h.there⟩
  by_cases he : c = small.size
  · subst he
    rw [Function.update_self] at hc
    cases hc
    refine ⟨Option.eq_none_iff_forall_ne_some.mpr fun d hd => ?_, e.value, by simp, rfl⟩
    exact Nat.lt_irrefl _ (h.shared.lt_small hd)
  · rw [Function.update_of_ne he] at hc
    exact (h.here c x hc).imp_right fun hheld => hheld.push _

theorem Pairs.pushThere (h : A.Pairs B ι small large) (e : Entry) :
    B large.size = none ∧
      A.Pairs (Function.update B large.size (some e)) ι small (large.push e.value) := by
  have hnone : B large.size = none := Option.eq_none_iff_forall_ne_some.mpr fun x hx =>
    Nat.lt_irrefl _ (h.there _ x hx).2.lt
  refine ⟨hnone, ⟨h.shared.ordered, fun c d hc => ?_⟩, h.here, fun d x hd => ?_⟩
  · obtain ⟨v, w, hv, hw, hm⟩ := h.shared.value c d hc
    have := h.shared.lt_large hc
    exact ⟨v, w, hv, by rw [Array.getElem?_push, if_neg (by omega), hw], hm⟩
  · by_cases he : d = large.size
    · subst he
      rw [Function.update_self] at hd
      cases hd
      refine ⟨fun c hc => ?_, e.value, by simp, rfl⟩
      exact Nat.lt_irrefl _ (h.shared.lt_large hc)
    · rw [Function.update_of_ne he] at hd
      exact (h.there d x hd).imp_right fun hheld => hheld.push _

end Ledger

section Agree

variable {ι : Placing} {ρ τ : Regs}

theorem agree_put {d : Option Reg} {v w : Option Value} (h : Coding.all.Agree id ι ρ τ)
    (hm : MovedOption id ι v w) : Coding.all.Agree id ι (ρ.put d v) (τ.put d w) := by
  have hput := h.put (d := d) (fun _ _ _ _ he => he) hm
  rwa [show Coding.all.reg = id from rfl, Option.map_id] at hput

theorem agree_bind {ds : List Reg} {vs ws : List Value} (h : Coding.all.Agree id ι ρ τ)
    (hall : List.Forall₂ (Moved id ι) vs ws) :
    Coding.all.Agree id ι (Regs.bind ds vs ρ) (Regs.bind ds ws τ) := by
  have hbind : Coding.all.Agree id ι (Regs.bind ds vs ρ) _ := h.bind hall fun _ _ _ _ he => he
  rwa [show Coding.all.reg = id from rfl, List.map_id] at hbind

end Agree

namespace Graft

variable {k f : FuncId} {G : Graft} {p q p' : Proc} {A B A' B' : Ledger} {n : Nat} {ι κ : Placing}
  {ρ τ σ : Regs} {L done : List Instruction} {d : Option Reg} {v w : Option Value} {s : Reg}

def Own (G : Graft) (q : Proc) (r : Reg) : Prop := ∀ x, q.Defines x → G.names.reg x ≠ r

/-- The registers of a function. Those of the caller `k` leave the names of registers of the callee
alone, and of the allocations of the callee those in `L` have been made. -/
structure Outer (G : Graft) (k : FuncId) (q : Proc) (L : List Instruction) (B : Ledger) (n : Nat)
    (ι : Placing) (f : FuncId) (ρ σ : Regs) : Prop where
  regs : Coding.all.Agree id ι ρ σ
  fresh : f = k → ∀ r, q.Defines r → ρ (G.names.reg r) = none
  slots : f = k → ∀ s ty, .alloca s ty ∈ L →
    ∃ h w, σ (G.names.reg s) = some (.ptr h) ∧ B h = some ⟨n, s, w⟩

theorem Outer.start (hf : f = k → L = []) :
    G.Outer k q L B n ι f (fun _ => none) fun _ => none := by
  refine ⟨fun _ _ _ hv => (by cases hv), fun _ _ _ => rfl, fun he s ty hs => ?_⟩
  rw [hf he] at hs
  cases hs

theorem Outer.extend (h : G.Outer k q L B n ι f ρ σ) (he : ι.Extends κ) (hB : B.Keeps (n + 1) B') :
    G.Outer k q L B' n κ f ρ σ := by
  refine ⟨h.regs.extend he, h.fresh, fun hf s ty hs => ?_⟩
  obtain ⟨c, w, hσ, hc⟩ := h.slots hf s ty hs
  exact ⟨c, w, hσ, hB _ _ hc (Nat.lt_succ_self n)⟩

theorem Outer.put (h : G.Outer k q L B n ι f ρ σ) (hL : L ⊆ q.allocas)
    (hd : f = k → ∀ r ∈ d, G.Own q r) (hm : MovedOption id ι v w) :
    G.Outer k q L B n ι f (ρ.put d v) (σ.put d w) := by
  refine ⟨agree_put h.regs hm, fun hf r hr => ?_, fun hf s ty hs => ?_⟩
  · rw [Regs.put_of_ne fun he => hd hf _ he r hr rfl]
    exact h.fresh hf r hr
  · rw [Regs.put_of_ne fun he => hd hf _ he s (Proc.Slot.defines ⟨ty, hL hs⟩) rfl]
    exact h.slots hf s ty hs

theorem Outer.bind {ds : List Reg} {vs ws : List Value} (h : G.Outer k q L B n ι f ρ σ)
    (hL : L ⊆ q.allocas) (hd : f = k → ∀ r ∈ ds, G.Own q r)
    (hall : List.Forall₂ (Moved id ι) vs ws) :
    G.Outer k q L B n ι f (Regs.bind ds vs ρ) (Regs.bind ds ws σ) := by
  induction hall generalizing ds ρ σ with
  | nil => cases ds <;> exact h
  | cons hm _ ih =>
    cases ds with
    | nil => exact h
    | cons r ds =>
      refine ih (h.put (d := some r) hL (fun hf x hx => ?_) (.some hm))
        fun hf x hx => hd hf x (mem_cons_of_mem _ hx)
      cases hx
      exact hd hf _ mem_cons_self

/-- The registers of the callee, `τ`, and those of the caller, `ρ`, which waits for it. A parameter
stands for what was passed in its place. A slot has a cell in both memories, and once it is stored
both hold the same. -/
structure Inner (G : Graft) (k : FuncId) (q : Proc) (A B : Ledger) (n : Nat) (ι : Placing)
    (done : List Instruction) (ρ τ σ : Regs) : Prop extends
    Outer G k q q.allocas B n ι k ρ σ where
  value : ∀ r v, ¬ q.Slot r → τ r = some v →
    (q.Defines r ∧ Carried id ι (some v) (σ (G.names.reg r))) ∨
      ρ.value (G.names.operand (.reg r)) = some v
  slot : ∀ s v, q.Slot s → τ s = some v → ∃ c x h w, v = .ptr c ∧ A c = some ⟨n, s, x⟩ ∧
    σ (G.names.reg s) = some (.ptr h) ∧ B h = some ⟨n, s, w⟩ ∧
      ((∃ o, .store (.reg s) o ∈ done) → Moved id ι x w)
  opened : ∀ s o, q.Slot s → .store (.reg s) o ∈ done → τ s ≠ none

theorem Inner.extend (h : G.Inner k q A B n ι done ρ τ σ) (he : ι.Extends κ)
    (hA : A.Keeps (n + 1) A') (hB : B.Keeps (n + 1) B') : G.Inner k q A' B' n κ done ρ τ σ := by
  refine ⟨h.toOuter.extend he hB, fun r v hr hv => (h.value r v hr hv).imp_left ?_,
    fun s v hs hv => ?_, h.opened⟩
  · rintro ⟨hd, hc⟩
    refine ⟨hd, fun v hv => ?_⟩
    obtain ⟨w, hw, hm⟩ := hc v hv
    exact ⟨w, hw, hm.extend he⟩
  · obtain ⟨c, x, c', w, hv, hc, hσ, hc', hm⟩ := h.slot s v hs hv
    exact ⟨c, x, c', w, hv, hA _ _ hc (Nat.lt_succ_self n), hσ, hB _ _ hc' (Nat.lt_succ_self n),
      fun ho => (hm ho).extend he⟩

theorem Inner.operand (hJ : G.Joins p q p') (h : G.Inner k q A B n ι done ρ τ σ) {o : Operand}
    (ho : ∀ r ∈ o.reg?, ¬ q.Slot r) : Carried id ι (τ.value o) (σ.value (G.names.operand o)) := by
  intro v hv
  cases o with
  | const c =>
    cases hv
    exact ⟨_, rfl, .ofConst c⟩
  | reg r =>
    rcases h.value r v (ho r rfl) hv with ⟨hd, hc⟩ | hρ
    · rw [(hJ.reg_new hd).1]
      exact hc v rfl
    · have hsame := h.regs.value (o := G.names.operand (.reg r)) (fun _ _ => trivial)
      rw [Coding.all, Duplicates.Renaming.operand_same] at hsame
      exact hsame v hρ

theorem Inner.put (hJ : G.Joins p q p') (h : G.Inner k q A B n ι done ρ τ σ)
    (hd : ∀ r ∈ d, q.Defines r ∧ ¬ q.Slot r) (hm : MovedOption id ι v w) :
    G.Inner k q A B n ι done ρ (τ.put d v) (σ.put (d.map G.names.reg) w) := by
  cases d with
  | none => exact h
  | some d =>
    obtain ⟨hdef, hslot⟩ := hd d rfl
    have hne : ∀ {r}, q.Defines r → r ≠ d → some (G.names.reg d) ≠ some (G.names.reg r) :=
      fun hr hne he => hne (hJ.reg_inj hr hdef (Option.some.inj he).symm)
    have hslot' : ∀ {s}, q.Slot s → s ≠ d := by
      rintro s hs rfl
      exact hslot hs
    rw [Option.map_some]
    refine ⟨⟨fun r hr x hx => ?_, h.fresh, fun hf s ty hs => ?_⟩, fun r x hr hx => ?_,
      fun s x hs hx => ?_, fun s o hs ho => ?_⟩
    · have hrd : some (G.names.reg d) ≠ some r := by
        rintro ⟨⟩
        rw [h.fresh rfl d hdef] at hx
        cases hx
      rw [show Coding.all.reg r = r from rfl, Regs.put_of_ne hrd]
      exact h.regs r hr x hx
    · have hs' : q.Slot s := ⟨ty, hs⟩
      rw [Regs.put_of_ne (hne hs'.defines (hslot' hs'))]
      exact h.slots hf s ty hs
    · by_cases hrd : r = d
      · subst hrd
        rw [Regs.put_self] at hx
        cases hx
        refine .inl ⟨hdef, fun y hy => ?_⟩
        cases hy
        exact ⟨_, Regs.put_self .., hm.getD⟩
      · rw [Regs.put_of_ne (by simpa using Ne.symm hrd)] at hx
        refine (h.value r x hr hx).imp_left ?_
        rintro ⟨hr', hc⟩
        rw [Regs.put_of_ne (hne hr' hrd)]
        exact ⟨hr', hc⟩
    · rw [Regs.put_of_ne (by simpa using (hslot' hs).symm)] at hx
      rw [Regs.put_of_ne (hne hs.defines (hslot' hs))]
      exact h.slot s x hs hx
    · rw [Regs.put_of_ne (by simpa using (hslot' hs).symm)]
      exact h.opened s o hs ho

theorem Inner.bind (hJ : G.Joins p q p') {ds : List Reg} {vs ws : List Value}
    (h : G.Inner k q A B n ι done ρ τ σ) (hd : ∀ r ∈ ds, q.Defines r ∧ ¬ q.Slot r)
    (hall : List.Forall₂ (Moved id ι) vs ws) :
    G.Inner k q A B n ι done ρ (Regs.bind ds vs τ) (Regs.bind (ds.map G.names.reg) ws σ) := by
  induction hall generalizing ds τ σ with
  | nil => cases ds <;> exact h
  | cons hm _ ih =>
    cases ds with
    | nil => exact h
    | cons r ds =>
      refine ih (h.put hJ (d := some r) (fun x hx => ?_) (.some hm))
        fun x hx => hd x (mem_cons_of_mem _ hx)
      cases hx
      exact hd _ mem_cons_self

theorem value_of_bind {rs : List Reg} {os : List Operand} {vs : List Value}
    (hargs : List.Forall₂ (fun r o => G.names.operand (.reg r) = o) rs os)
    (hvs : os.mapM ρ.value = some vs)
    (hτ : ∀ r v, τ r = some v → r ∈ q.params ∧ ρ.value (G.names.operand (.reg r)) = some v)
    (hrs : rs ⊆ q.params) {r : Reg} {v : Value} (hv : Regs.bind rs vs τ r = some v) :
    r ∈ q.params ∧ ρ.value (G.names.operand (.reg r)) = some v := by
  induction hargs generalizing vs τ with
  | nil => exact hτ r v (by cases vs <;> exact hv)
  | @cons r' o rs os he _ ih =>
    rw [mapM_cons] at hvs
    obtain ⟨x, hx, hvs⟩ := bind_eq_some_iff.mp hvs
    obtain ⟨vs', hvs', hvs⟩ := bind_eq_some_iff.mp hvs
    cases hvs
    refine ih hvs' (fun y z hy => ?_) (fun y hy => hrs (mem_cons_of_mem _ hy)) hv
    by_cases hyr : y = r'
    · subst hyr
      rw [Regs.put_self] at hy
      cases hy
      exact ⟨hrs mem_cons_self, he ▸ hx⟩
    · rw [Regs.put_of_ne (by simpa using Ne.symm hyr)] at hy
      exact hτ y z hy

theorem Outer.enter (hJ : G.Joins p q p') (hq : q.Distinct) {vs : List Value}
    (h : G.Outer k q q.allocas B n ι k ρ σ) (hvs : G.args.mapM ρ.value = some vs) :
    G.Inner k q A B n ι [] ρ (Regs.bind q.params vs fun _ => none) σ ∧
      ∀ s, q.Slot s → Regs.bind q.params vs (fun _ => none) s = none := by
  have hbind : ∀ {r v}, Regs.bind q.params vs (fun _ => none) r = some v →
      r ∈ q.params ∧ ρ.value (G.names.operand (.reg r)) = some v := fun hv =>
    value_of_bind hJ.args hvs (fun _ _ hn => by cases hn) (Subset.refl _) hv
  have hnone : ∀ s, q.Slot s → Regs.bind q.params vs (fun _ => none) s = none := fun s hs =>
    Option.eq_none_iff_forall_ne_some.mpr fun v hv => hq.param s (hbind hv).1 hs.defines
  refine ⟨⟨h, fun r v _ hv => .inr (hbind hv).2, fun s v hs hv => ?_,
    fun s o _ ho => absurd ho not_mem_nil⟩, hnone⟩
  rw [hnone s hs] at hv
  cases hv

theorem Inner.note (h : G.Inner k q A B n ι done ρ τ σ) {i : Instruction}
    (hi : ∀ s o, i = .store (.reg s) o → ¬ q.Slot s) : G.Inner k q A B n ι (i :: done) ρ τ σ := by
  have hold : ∀ {s o}, q.Slot s → .store (.reg s) o ∈ i :: done → .store (.reg s) o ∈ done :=
    fun hs ho => (mem_cons.mp ho).resolve_left fun he => hi _ _ he.symm hs
  refine ⟨h.toOuter, h.value, fun s v hs hv => ?_, fun s o hs ho => h.opened s o hs (hold hs ho)⟩
  obtain ⟨c, x, c', w, hv, hc, hσ, hc', hm⟩ := h.slot s v hs hv
  refine ⟨c, x, c', w, hv, hc, hσ, hc', ?_⟩
  rintro ⟨o, ho⟩
  exact hm ⟨o, hold hs ho⟩

end Graft

end SiteFusion
