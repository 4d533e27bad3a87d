import SiteFusion.Proofs.SpilledReads

namespace SiteFusion

open List Option

namespace Spill

variable {f g : Function} {d : Definition} {w : Reg} {l key : BlockId} {b b' : Block}
  {tail : BlockId → List Reg} {P : BlockId → Reg → Prop}
  {A : Operation Instruction → Operation Instruction → Prop} {D : Reg → Prop}
  {N : Operation Instruction → Prop} {before : List Reg} {d' : Definition}
  {done ds : List Definition} {g' : Function} {n n' : Nat}
  {owner : Reg → Option (Definition × Bool)} {ps : List (BlockId × OpId)}

def Fixes (D : Reg → Prop) (φ : Operand → Operand) : Prop :=
  (∀ c, φ (.const c) = .const c) ∧ ∀ r, ¬ D r → φ (.reg r) = .reg r

/-- An instruction that stays, and may read other registers in the place of those of `D`. -/
structure Carried (D : Reg → Prop) (p o : Operation Instruction) : Prop where
  id : o.id = p.id
  tags : o.tags = p.tags
  kind : ∃ φ, Fixes D φ ∧ o.kind = p.kind.mapOperands φ

/-- A terminator that stays, and may read other registers in the place of those of `D`. -/
structure CarriedExit (D : Reg → Prop) (t u : Operation Terminator) : Prop where
  id : u.id = t.id
  tags : u.tags = t.tags
  kind : ∃ φ, Fixes D φ ∧ u.kind = t.kind.mapOperands φ

theorem mapOperands_mapOperands (i : Instruction) (φ ψ : Operand → Operand) :
    (i.mapOperands φ).mapOperands ψ = i.mapOperands (ψ ∘ φ) := by
  cases i <;> simp [Instruction.mapOperands]

theorem mapOperands_mapOperands_terminator (t : Terminator) (φ ψ : Operand → Operand) :
    (t.mapOperands φ).mapOperands ψ = t.mapOperands (ψ ∘ φ) := by
  cases t <;> simp [Terminator.mapOperands]

section

variable {D : Reg → Prop} {φ ψ : Operand → Operand} {t u : Operation Terminator}

theorem Fixes.id : Fixes D id := ⟨fun _ => rfl, fun _ _ => rfl⟩

theorem Fixes.comp (hφ : Fixes D φ) (hψ : Fixes D ψ) : Fixes D (ψ ∘ φ) := by
  refine ⟨fun c => ?_, fun r hr => ?_⟩
  · rw [Function.comp_apply, hφ.1, hψ.1]
  · rw [Function.comp_apply, hφ.2 r hr, hψ.2 r hr]

theorem Fixes.replace {r : Reg} (hr : D r) (o : Operand) : Fixes D fun x => x.replace r o := by
  refine ⟨fun c => rfl, fun x hx => ?_⟩
  have hne : x ≠ r := fun h => hx (h ▸ hr)
  simp [Operand.replace, Operand.isReg, hne]

theorem Carried.refl (o : Operation Instruction) : Carried D o o :=
  ⟨rfl, rfl, _, .id, o.kind.mapOperands_id.symm⟩

theorem Carried.trans {p o q : Operation Instruction} (h : Carried D p o) (h' : Carried D o q) :
    Carried D p q := by
  obtain ⟨φ, hφ, hk⟩ := h.kind
  obtain ⟨ψ, hψ, hk'⟩ := h'.kind
  exact ⟨h'.id.trans h.id, h'.tags.trans h.tags, ψ ∘ φ, hφ.comp hψ, by
    rw [hk', hk, mapOperands_mapOperands]⟩

theorem CarriedExit.refl (t : Operation Terminator) : CarriedExit D t t :=
  ⟨rfl, rfl, _, .id, t.kind.mapOperands_id.symm⟩

theorem CarriedExit.trans {v : Operation Terminator} (h : CarriedExit D t u)
    (h' : CarriedExit D u v) : CarriedExit D t v := by
  obtain ⟨φ, hφ, hk⟩ := h.kind
  obtain ⟨ψ, hψ, hk'⟩ := h'.kind
  exact ⟨h'.id.trans h.id, h'.tags.trans h.tags, ψ ∘ φ, hφ.comp hψ, by
    rw [hk', hk, mapOperands_mapOperands_terminator]⟩

theorem CarriedExit.successors (h : CarriedExit D t u) : u.kind.successors = t.kind.successors := by
  obtain ⟨φ, -, hk⟩ := h.kind
  rw [hk]
  cases t.kind <;> rfl

theorem Kept.carried {before : List Reg} {p o : Operation Instruction} (h : Kept d before p o)
    (hd : D d.reg) : Carried D p o := by
  refine ⟨h.id, h.tags, ?_⟩
  rcases h.kind with hk | ⟨v, -, hk⟩
  · exact ⟨_, .id, by rw [hk, Instruction.mapOperands_id]⟩
  · exact ⟨_, .replace hd (.reg v), hk⟩

end

/-- Between instructions that have changed there are new ones. -/
inductive Interleaved (N : Operation Instruction → Prop)
    (A : Operation Instruction → Operation Instruction → Prop) :
    List (Operation Instruction) → List (Operation Instruction) → Prop
  | nil : Interleaved N A [] []
  | new {o r r'} (h : N o) (hr : Interleaved N A r r') : Interleaved N A r (o :: r')
  | old {p o r r'} (h : A p o) (hr : Interleaved N A r r') : Interleaved N A (p :: r) (o :: r')

namespace Interleaved

variable {N N' M : Operation Instruction → Prop}
  {A A' B : Operation Instruction → Operation Instruction → Prop}
  {r s t : List (Operation Instruction)}

theorem of_woven {V : List Reg → Operation Instruction → Prop}
    {C : List Reg → Operation Instruction → Operation Instruction → Prop} {before : List Reg}
    (h : Woven V C before r s) (hN : ∀ before o, V before o → N o)
    (hA : ∀ before p o, C before p o → A p o) : Interleaved N A r s := by
  induction h with
  | nil => exact .nil
  | new h _ ih => exact .new (hN _ _ h) ih
  | old h _ _ ih => exact .old (hA _ _ _ h) ih

theorem refl (hA : ∀ o, A o o) (r : List (Operation Instruction)) : Interleaved N A r r := by
  induction r with
  | nil => exact .nil
  | cons o r ih => exact .old (hA o) ih

theorem trans (h : Interleaved N A r s) (h' : Interleaved N' A' s t) (hnew : ∀ o, N' o → M o)
    (hold : ∀ o q, N o → A' o q → M q) (hcomp : ∀ p o q, A p o → A' o q → B p q) :
    Interleaved M B r t := by
  induction h' generalizing r with
  | nil =>
    cases h
    exact .nil
  | new hq _ ih => exact .new (hnew _ hq) (ih h)
  | old hq _ ih =>
    cases h with
    | new ho h => exact .new (hold _ _ ho hq) (ih h)
    | old ho h => exact .old (hcomp _ _ _ ho hq) (ih h)

theorem cases_mem (h : Interleaved N A r s) {o : Operation Instruction} (ho : o ∈ s) :
    N o ∨ ∃ p ∈ r, A p o := by
  induction h with
  | nil => cases ho
  | new hq _ ih =>
    rcases mem_cons.mp ho with rfl | ho
    · exact .inl hq
    · exact ih ho
  | old hq _ ih =>
    rcases mem_cons.mp ho with rfl | ho
    · exact .inr ⟨_, mem_cons_self, hq⟩
    · rcases ih ho with ho | ⟨p, hp, hA⟩
      · exact .inl ho
      · exact .inr ⟨p, mem_cons_of_mem _ hp, hA⟩

end Interleaved

/-- A block of which nothing is lost, but phis. Registers that are new to it are numbered from `n`
on. -/
structure Extends (N : Operation Instruction → Prop)
    (A : Operation Instruction → Operation Instruction → Prop) (D : Reg → Prop) (n : Nat)
    (b b' : Block) : Prop where
  id : b'.id = b.id
  phis : ∀ q' ∈ b'.phis, ∃ q ∈ b.phis, q'.id = q.id ∧ q'.tags = q.tags ∧
    q'.kind.ty = q.kind.ty ∧ q'.kind.dest = q.kind.dest
  defs : b.defs ⊆ b'.defs
  fresh : ∀ r ∈ b'.defs, r ∈ b.defs ∨ n ≤ r.index.toNat
  exit : CarriedExit D b.terminator b'.terminator
  instructions : Interleaved N A b.instructions b'.instructions

/-- A function of which nothing is lost, but phis. -/
structure Grown (N : Operation Instruction → Prop)
    (A : Operation Instruction → Operation Instruction → Prop) (D : Reg → Prop) (n : Nat)
    (f g : Function) : Prop where
  header : g.header = f.header
  trap : g.trap = f.trap
  block : ∀ l, Option.Rel (Extends N A D n) (f.graph.block? l) (g.graph.block? l)

theorem Grown.trans {h : Function} {N' M : Operation Instruction → Prop}
    {A' B : Operation Instruction → Operation Instruction → Prop} (hfg : Grown N A D n f g)
    (hgh : Grown N' A' D n g h) (hnew : ∀ o, N' o → M o) (hold : ∀ o q, N o → A' o q → M q)
    (hcomp : ∀ p o q, A p o → A' o q → B p q) : Grown M B D n f h := by
  refine ⟨hgh.header.trans hfg.header, hgh.trap.trans hfg.trap, fun l => ?_⟩
  have h₁ := hfg.block l
  have h₂ := hgh.block l
  revert h₁ h₂
  generalize f.graph.block? l = x
  generalize g.graph.block? l = y
  generalize h.graph.block? l = z
  rintro (h₁ | _) (h₂ | _)
  · refine .some ⟨h₂.id.trans h₁.id, fun q hq => ?_, List.Subset.trans h₁.defs h₂.defs, fun r hr => ?_,
      h₁.exit.trans h₂.exit, h₁.instructions.trans h₂.instructions hnew hold hcomp⟩
    · obtain ⟨q₁, hq₁, hid, htags, hty, hdest⟩ := h₂.phis q hq
      obtain ⟨q₀, hq₀, hid', htags', hty', hdest'⟩ := h₁.phis q₁ hq₁
      exact ⟨q₀, hq₀, hid.trans hid', htags.trans htags', hty.trans hty', hdest.trans hdest'⟩
    · rcases h₂.fresh r hr with hr | hr
      · exact h₁.fresh r hr
      · exact .inr hr
  · exact .none

theorem Grown.refl (hA : ∀ o, A o o) (f : Function) : Grown N A D n f f := by
  refine ⟨rfl, rfl, fun l => ?_⟩
  cases f.graph.block? l with
  | none => exact .none
  | some b =>
    exact .some ⟨rfl, fun q hq => ⟨q, hq, rfl, rfl, rfl, rfl⟩, fun _ h => h, fun r hr => .inl hr,
      .refl _, .refl hA _⟩

theorem Woven.mem_dests {N : List Reg → Operation Instruction → Prop}
    {C : List Reg → Operation Instruction → Operation Instruction → Prop}
    {r r' : List (Operation Instruction)} (h : Woven N C before r r') {x : Reg} (hx : x ∈ dests r') :
    x ∈ dests r ∨ ∃ before o, N before o ∧ o.kind.dest? = some x := by
  induction h with
  | nil => exact .inl hx
  | new hN _ ih =>
    rw [dests_cons, mem_append] at hx
    rcases hx with hx | hx
    · exact .inr ⟨_, _, hN, by simpa using hx⟩
    · exact ih hx
  | @old before p o r r' _ hd _ ih =>
    rw [dests_cons, mem_append] at hx ⊢
    rw [hd] at hx
    rcases hx with hx | hx
    · exact .inl (.inl hx)
    · exact (ih hx).imp_left .inr

theorem Moved.grown (h : Moved f d w tail g) (hN : ∀ before o, Added d w before o → N o)
    (hd : D d.reg) (hn : n ≤ f.nextReg.toNat) :
    Grown N (fun p o => ∃ before, Kept d before p o) D n f g := by
  refine ⟨h.header, h.trap, fun l => rel_imp (h.block l) fun b b' _ _ hrel => ?_⟩
  have hid : b'.id = b.id := by
    obtain ⟨s, hc, hb'⟩ := hrel
    split at hb'
    · obtain ⟨store, -, rfl⟩ := hb'
      exact hc.id
    · rw [hb']
      exact hc.id
  refine ⟨hid, fun q' hq' => ?_, hrel.defs_subset, fun r hr => ?_, ?_,
    .of_woven hrel.woven hN fun before _ _ hk => ⟨before, hk⟩⟩
  · obtain ⟨q, hq, hqid, hqtags, hqty, hqdest, -⟩ := forall₂_exists_left hrel.phis hq'
    exact ⟨q, hq, hqid, hqtags, hqty, hqdest⟩
  · have hw : n ≤ w.index.toNat := by
      rw [h.cell]
      exact hn
    rcases mem_append.mp hr with hr | hr
    · exact .inl (mem_append_left _ (hrel.dests_phis ▸ hr))
    · rcases hrel.woven.mem_dests hr with hr | ⟨_, o, hadd, hdest⟩
      · exact .inl (mem_append_right _ hr)
      · refine .inr ?_
        cases hadd with
        | slot ho =>
          rw [(Operation.told_eq.mp ho).1] at hdest
          cases hdest
          exact hw
        | load ho hv =>
          rw [(Operation.told_eq.mp ho).1] at hdest
          cases hdest
          exact Nat.le_of_lt (Nat.lt_of_le_of_lt hw hv)
        | store ho =>
          rw [(Operation.told_eq.mp ho).1] at hdest
          cases hdest
  · obtain ⟨hexitId, hexitTags, hexit⟩ := hrel.exit
    refine ⟨hexitId, hexitTags, ?_⟩
    rcases hexit with heq | ⟨v, -, heq⟩
    · exact ⟨_, .id, by rw [heq, Terminator.mapOperands_id]⟩
    · exact ⟨_, .replace hd (.reg v), heq⟩

theorem Dropped.grown {index : Nat} {p : Operation Phi} (h : Dropped f key index p w g)
    (hp : ∀ b, f.graph.block? key = some b → b.phis[index]? = some p)
    (hN : ∀ l all before o, AddedFor p w l all before o → N o) (hn : n ≤ f.nextReg.toNat) :
    Grown N (fun p o => o = p) D n f g := by
  refine ⟨h.header, h.trap, fun l => ?_⟩
  have hw : n ≤ w.index.toNat := by
    rw [h.cell]
    exact hn
  cases hb : f.graph.block? l with
  | none =>
    obtain ⟨slot, load, stores, -, -, -, hblock⟩ := h.blocks
    rw [hblock, hb]
    exact .none
  | some b =>
    obtain ⟨b', hb'⟩ := h.exists_block hb
    rw [hb']
    obtain ⟨b₀, hb₀, hterm, hid, hphis, -, hload, hwoven⟩ := h.cases_block hp hb'
    rw [hb] at hb₀
    cases hb₀
    have hsub : b'.phis.Sublist b.phis := by
      rw [hphis]
      split
      · exact eraseIdx_sublist _ _
      · exact List.Sublist.refl _
    refine .some ⟨hid, fun q hq => ⟨q, hsub.subset hq, rfl, rfl, rfl, rfl⟩,
      dests_phis_subset hphis (fun hl => hp b (hl ▸ hb)) hload hwoven.dests_subset, fun r hr => ?_,
      hterm ▸ .refl _, .of_woven hwoven (hN l b.defs) fun _ _ _ hk => hk⟩
    rcases mem_append.mp hr with hr | hr
    · exact .inl (mem_append_left _ ((hsub.map _).subset hr))
    · rcases hwoven.mem_dests hr with hr | ⟨_, o, hadd, hdest⟩
      · exact .inl (mem_append_right _ hr)
      · cases hadd with
        | slot ho =>
          rw [(Operation.told_eq.mp ho).1] at hdest
          cases hdest
          exact .inr hw
        | load ho hd =>
          rw [(Operation.told_eq.mp ho).1] at hdest
          cases hdest
          exact .inl hd
        | store ho =>
          rw [(Operation.told_eq.mp ho).1] at hdest
          cases hdest

/-- An instruction that works on the cell `s` of a value. A value has a cell of its own where it is
stored after its definition, and a phi has one that it is loaded from. -/
inductive Serves (d : Definition) (s : Reg) : Bool → Instruction → Prop
  | slot (phi : Bool) : Serves d s phi (.alloca s d.ty)
  | save : Serves d s false (.store (.reg s) (.reg d.reg))
  | reload (v : Reg) : Serves d s false (.load v (.reg s) d.ty)
  | pass (v : Operand) : Serves d s true (.store (.reg s) v)
  | arrive : Serves d s true (.load d.reg (.reg s) d.ty)

/-- An instruction works on a cell, and bears the notes of the value that the cell belongs to. -/
def Served (owner : Reg → Option (Definition × Bool)) (o : Operation Instruction) : Prop :=
  ∃ s d phi, owner s = some (d, phi) ∧ Serves d s phi o.kind ∧ o.tags = d.tags

/-- A function while its values are being moved to memory. Those of `done` have been moved. -/
structure Progress (f : Function) (done : List Definition)
    (owner : Reg → Option (Definition × Bool)) (g : Function) : Prop where
  numbered : g.Numbered
  counter : f.nextReg.toNat ≤ g.nextReg.toNat
  grown : Grown (Served owner) (Carried fun r => ∃ d ∈ escaping f, d.reg = r)
    (fun r => ∃ d ∈ escaping f, d.reg = r) f.nextReg.toNat f g
  owned : ∀ s d phi, owner s = some (d, phi) → d ∈ definitions f ∧
    f.nextReg.toNat ≤ s.index.toNat ∧ s.index.toNat < g.nextReg.toNat ∧ (phi = false → d ∈ done)

theorem Serves.replaceUse {s v : Reg} {phi : Bool} {i : Instruction} (h : Serves d' s phi i)
    (hs : s ≠ d.reg) (hd : phi = false → d'.reg ≠ d.reg) :
    Serves d' s phi (i.replaceUse d.reg (.reg v)) := by
  have hcell : (Operand.reg s).replace d.reg (.reg v) = .reg s := by
    simp [Operand.replace, Operand.isReg, hs]
  cases h with
  | slot => exact .slot _
  | save =>
    have hvalue : (Operand.reg d'.reg).replace d.reg (.reg v) = .reg d'.reg := by
      simp [Operand.replace, Operand.isReg, hd rfl]
    simp only [Instruction.replaceUse, Instruction.mapOperands, hcell, hvalue]
    exact .save
  | reload u =>
    simp only [Instruction.replaceUse, Instruction.mapOperands, hcell]
    exact .reload u
  | pass u =>
    simp only [Instruction.replaceUse, Instruction.mapOperands, hcell]
    exact .pass _
  | arrive =>
    simp only [Instruction.replaceUse, Instruction.mapOperands, hcell]
    exact .arrive

theorem Added.served {o : Operation Instruction} (h : Added d w before o)
    (hw : owner w = some (d, false)) : Served owner o := by
  refine ⟨w, d, false, hw, ?_⟩
  cases h with
  | slot ho | load ho _ | store ho _ =>
    obtain ⟨hk, ht⟩ := Operation.told_eq.mp ho
    rw [hk]
    exact ⟨by constructor, ht⟩

def ofPhi (key : BlockId) (p : Operation Phi) : Definition :=
  ⟨p.kind.dest, key, p.id, true, p.kind.ty, p.tags⟩

theorem AddedFor.served {all : List Reg} {p : Operation Phi} {o : Operation Instruction}
    (h : AddedFor p w l all before o) (hw : owner w = some (ofPhi key p, true)) :
    Served owner o := by
  refine ⟨w, ofPhi key p, true, hw, ?_⟩
  cases h with
  | slot ho =>
    obtain ⟨hk, ht⟩ := Operation.told_eq.mp ho
    exact ⟨by rw [hk]; exact .slot true, ht⟩
  | load ho =>
    obtain ⟨hk, ht⟩ := Operation.told_eq.mp ho
    exact ⟨by rw [hk]; exact .arrive, ht⟩
  | store ho =>
    obtain ⟨hk, ht⟩ := Operation.told_eq.mp ho
    exact ⟨by rw [hk]; exact .pass _, ht⟩

def own (owner : Reg → Option (Definition × Bool)) (w : Reg) (d : Definition) (phi : Bool)
    (s : Reg) : Option (Definition × Bool) :=
  if s = w then some (d, phi) else owner s

namespace Progress

variable {done : List Definition} {owner : Reg → Option (Definition × Bool)} {g' : Function}
  {phi : Bool}

theorem owner_next (h : Progress f done owner g) : owner ⟨g.nextReg⟩ = none := by
  rw [eq_none_iff_forall_not_mem]
  rintro ⟨d, phi⟩ hd
  exact Nat.lt_irrefl _ (h.owned _ d phi hd).2.2.1

theorem served_own (h : Progress f done owner g) {o : Operation Instruction} (hw : w = ⟨g.nextReg⟩)
    (ho : Served owner o) : Served (own owner w d phi) o := by
  obtain ⟨s, d', phi', hs, hserves, htags⟩ := ho
  refine ⟨s, d', phi', ?_, hserves, htags⟩
  rw [own, if_neg, hs]
  rintro rfl
  rw [hw, h.owner_next] at hs
  cases hs

theorem owned_own (h : Progress f done owner g) {done' : List Definition} (hd : d ∈ definitions f)
    (hdone : done ⊆ done') (hw : w = ⟨g.nextReg⟩) (hb : w.index.toNat < g'.nextReg.toNat)
    (hmem : phi = false → d ∈ done') (s : Reg) (d' : Definition) (phi' : Bool)
    (hs : own owner w d phi s = some (d', phi')) :
    d' ∈ definitions f ∧ f.nextReg.toNat ≤ s.index.toNat ∧ s.index.toNat < g'.nextReg.toNat ∧
      (phi' = false → d' ∈ done') := by
  unfold own at hs
  have hwn : w.index.toNat = g.nextReg.toNat := by rw [hw]
  split at hs
  · next hsw =>
    cases hs
    subst hsw
    exact ⟨hd, by rw [hwn]; exact h.counter, hb, hmem⟩
  · obtain ⟨hd', hlow, hhigh, hm⟩ := h.owned s d' phi' hs
    exact ⟨hd', hlow, by omega, fun hp => hdone (hm hp)⟩

theorem moved (h : Progress f done owner g) (hm : Moved g d w tail g') (hg' : g'.Numbered)
    (hd : d ∈ escaping f) (hlt : d.reg.index.toNat < f.nextReg.toNat)
    (hdone : ∀ d' ∈ done, d'.reg ≠ d.reg) :
    Progress f (d :: done) (own owner w d false) g' := by
  have hwn : w.index.toNat = g.nextReg.toNat := by rw [hm.cell]
  have hself : own owner w d false w = some (d, false) := if_pos rfl
  have hD : ∃ d' ∈ escaping f, d'.reg = d.reg := ⟨d, hd, rfl⟩
  refine ⟨hg', by have := h.counter; have := hm.bound; omega, ?_,
    h.owned_own (definitions_of_escaping hd) (subset_cons_self _ _) hm.cell hm.bound
      fun _ => mem_cons_self⟩
  refine h.grown.trans (hm.grown (fun _ _ ho => ho.served hself) hD h.counter)
    (fun _ ho => ho) ?_ ?_
  · rintro o q ho ⟨before, hk⟩
    obtain ⟨s, d', phi, hs, hserves, htags⟩ := ho
    obtain ⟨-, hlow, -, hmem⟩ := h.owned s d' phi hs
    refine h.served_own hm.cell ⟨s, d', phi, hs, ?_, hk.tags.trans htags⟩
    rcases hk.kind with hk | ⟨v, -, hk⟩
    · rw [hk]
      exact hserves
    · rw [hk]
      exact hserves.replaceUse (ne_of_lt (by omega)) fun hphi => hdone d' (hmem hphi)
  · rintro p o q hp ⟨before, hk⟩
    exact hp.trans (hk.carried hD)

theorem dropped {index : Nat} {p : Operation Phi} (h : Progress f done owner g)
    (hm : Dropped g key index p w g') (hg' : g'.Numbered)
    (hp : ∀ b, g.graph.block? key = some b → b.phis[index]? = some p)
    (hd : ofPhi key p ∈ definitions f) :
    Progress f done (own owner w (ofPhi key p) true) g' := by
  have hwn : w.index.toNat = g.nextReg.toNat := by rw [hm.cell]
  have hself : own owner w (ofPhi key p) true w = some (ofPhi key p, true) := if_pos rfl
  refine ⟨hg', by have := h.counter; have := hm.bound; omega, ?_,
    h.owned_own hd (fun _ hx => hx) hm.cell hm.bound (by simp)⟩
  refine h.grown.trans (hm.grown hp (fun _ _ _ _ ho => ho.served hself) h.counter)
    (fun _ ho => ho) ?_ ?_
  · rintro o _ ho rfl
    exact h.served_own hm.cell ho
  · rintro q o _ hq rfl
    exact hq

theorem ofPhi_mem (h : Progress f done owner g) {p : Operation Phi}
    (hb : g.graph.block? key = some b) (hp : p ∈ b.phis) : ofPhi key p ∈ definitions f := by
  obtain ⟨b₀, hb₀, hext⟩ := rel_some_right (h.grown.block key) hb
  obtain ⟨q, hq, hid, htags, hty, hdest⟩ := hext.phis p hp
  refine Table.mem_flatMap_values.mpr ⟨key, b₀, hb₀,
    mem_append_left _ (List.mem_map.mpr ⟨q, hq, ?_⟩)⟩
  rw [ofPhi, hid, htags, hty, hdest, ← hext.id, h.numbered.blockKey key b hb]

end Progress

theorem Moved.in (h : Moved f d w tail g) (hd : d'.In f) : d'.In g := by
  obtain ⟨b, hb, hdef⟩ := hd
  obtain ⟨b', hb', hrel⟩ := rel_some (h.block d'.block) hb
  refine ⟨b', hb', ?_⟩
  split at hdef
  · next hphi =>
    rw [if_pos hphi]
    obtain ⟨p, hp, hid, hdest⟩ := hdef
    obtain ⟨p', hp', hid', -, -, hdest', -⟩ := forall₂_exists_right hrel.phis hp
    exact ⟨p', hp', hid'.trans hid, hdest'.trans hdest⟩
  · next hphi =>
    rw [if_neg hphi]
    obtain ⟨o, ho, hid, hdest, hcell⟩ := hdef
    obtain ⟨o', ho', _, hkept⟩ := hrel.woven.image ho
    refine ⟨o', ho', hkept.id.trans hid, ?_⟩
    rcases hkept.kind with hk | ⟨v, -, hk⟩
    · exact ⟨by rw [hk, hdest], by rw [hk, hcell]⟩
    · exact ⟨by rw [hk, Instruction.dest?_replaceUse, hdest],
        by rw [hk, Instruction.isAlloca_replaceUse, hcell]⟩

theorem Definition.in_of_mem (hn : f.Numbered) (hd : d ∈ definitions f) : d.In f := by
  obtain ⟨k, b, hk, hd⟩ := Table.mem_flatMap_values.mp hd
  have hkey := hn.blockKey k b hk
  rcases mem_append.mp hd with hd | hd
  · obtain ⟨p, hp, rfl⟩ := List.mem_map.mp hd
    exact ⟨b, by rw [hkey]; exact hk, p, hp, rfl, rfl⟩
  · obtain ⟨o, ho, hd⟩ := mem_filterMap.mp hd
    split at hd
    · cases hd
    · next hcell =>
      obtain ⟨r, hr, rfl⟩ := map_eq_some_iff.mp hd
      exact ⟨b, by rw [hkey]; exact hk, o, ho, rfl, hr, Bool.eq_false_iff.mpr hcell⟩

theorem isSome_entry {R : BlockId → Block → Block → Prop} (hheader : g.header = f.header)
    (h : ∀ l, Option.Rel (R l) (f.graph.block? l) (g.graph.block? l))
    (hf : (f.graph.block? f.graph.entry).isSome) : (g.graph.block? g.graph.entry).isSome := by
  have hentry : g.graph.entry = f.graph.entry := congrArg Header.entry hheader
  obtain ⟨b, hb⟩ := isSome_iff_exists.mp hf
  obtain ⟨b', hb', -⟩ := rel_some (h f.graph.entry) hb
  rw [hentry, hb']
  rfl

theorem demoteValues_induction {Q : List Definition → Function → Prop}
    (hstep : ∀ {d ds g w tail g'}, Q (d :: ds) g → g.Numbered → g'.Numbered → d.In g →
      Moved g d w tail g' → Q ds g') (hn : f.Numbered) (hin : ∀ d ∈ ds, d.In f) (hQ : Q ds f)
    (hf : demoteValues ds f = .ok g) : Q [] g := by
  induction ds generalizing f with
  | nil =>
    cases hf
    exact hQ
  | cons d ds ih =>
    obtain ⟨f₁, h₁, hf⟩ := bind_eq_ok.mp hf
    have hd := hin d (by simp)
    obtain ⟨w, tail, hm⟩ := demoteValue_moved hd hn h₁
    have hn₁ : f₁.Numbered :=
      ((demoteValue_spare (Function.numbered_iff.mp hn) h₁).numbered trivial trivial).1
    exact ih hn₁ (fun d' hd' => hm.in (hin d' (mem_cons_of_mem _ hd')))
      (hstep hQ hn hn₁ hd hm) hf

theorem demotePhis_induction {Q : Function → Prop}
    (hstep : ∀ {g key b index p w g'}, Q g → g.Numbered → g'.Numbered →
      g.graph.block? key = some b → b.phis[index]? = some p → Dropped g key index p w g' → Q g')
    (hn : f.Numbered) (hQ : Q f) (hf : demotePhis ps f n = .ok (g, n')) : Q g := by
  induction ps generalizing f n with
  | nil =>
    cases hf
    exact hQ
  | cons e ps ih =>
    obtain ⟨key, op⟩ := e
    rw [demotePhis] at hf
    split at hf
    · exact ih hn hQ hf
    · next b hb =>
      split at hf
      · exact ih hn hQ hf
      · next i _ =>
        split at hf
        · exact ih hn hQ hf
        · next p hp =>
          obtain ⟨f₁, h₁, hf⟩ := bind_eq_ok.mp hf
          obtain ⟨w, hm⟩ := demotePhi_dropped h₁
          have hn₁ : f₁.Numbered :=
            ((demotePhi_spare (Function.numbered_iff.mp hn) hb hp h₁).numbered trivial trivial).1
          exact ih hn₁ (hstep hQ hn hn₁ hb hp hm) hf

theorem demoteValues_progress (h : Progress f done owner g) (hs : Settled P ds g)
    (hin : ∀ d ∈ ds, d.In g) (hds : ∀ d ∈ ds, d ∈ escaping f ∧ d.reg.index.toNat < f.nextReg.toNat)
    (hnodup : (ds.map Definition.reg).Nodup) (hdone : ∀ d ∈ ds, ∀ d' ∈ done, d'.reg ≠ d.reg)
    (hentry : (g.graph.block? g.graph.entry).isSome) (hf : demoteValues ds g = .ok g') :
    ∃ done' owner', Progress f done' owner' g' ∧ Settled P [] g' := by
  have hinv := demoteValues_induction (Q := fun ds g => ∃ done owner, Progress f done owner g ∧
    Settled P ds g ∧ (∀ d ∈ ds, d ∈ escaping f ∧ d.reg.index.toNat < f.nextReg.toNat) ∧
    (ds.map Definition.reg).Nodup ∧ (∀ d ∈ ds, ∀ d' ∈ done, d'.reg ≠ d.reg) ∧
    (g.graph.block? g.graph.entry).isSome) ?_ h.numbered hin
    ⟨done, owner, h, hs, hds, hnodup, hdone, hentry⟩ hf
  · obtain ⟨done', owner', h', hs', -⟩ := hinv
    exact ⟨done', owner', h', hs'⟩
  · rintro d ds g w tail g₁ ⟨done, owner, h, hs, hds, hnodup, hdone, hentry⟩ - hg₁ - hm
    obtain ⟨hde, hlt⟩ := hds d (by simp)
    rw [map_cons, nodup_cons] at hnodup
    refine ⟨d :: done, _, h.moved hm hg₁ hde hlt (hdone d (by simp)), hs.moved hm hentry,
      fun d' hd' => hds d' (mem_cons_of_mem _ hd'), hnodup.2, fun d' hd' d'' hd'' => ?_,
      isSome_entry hm.header hm.block hentry⟩
    rcases mem_cons.mp hd'' with rfl | hd''
    · exact fun heq => hnodup.1 (heq ▸ List.mem_map_of_mem hd')
    · exact hdone d' (mem_cons_of_mem _ hd') d'' hd''

theorem demotePhis_progress (h : Progress f done owner g) (hs : Settled P [] g)
    (hentry : (g.graph.block? g.graph.entry).isSome) (hf : demotePhis ps g n = .ok (g', n')) :
    ∃ owner', Progress f done owner' g' ∧ Settled P [] g' := by
  have hinv := demotePhis_induction (Q := fun g => ∃ owner, Progress f done owner g ∧
    Settled P [] g ∧ (g.graph.block? g.graph.entry).isSome) ?_ h.numbered
    ⟨owner, h, hs, hentry⟩ hf
  · obtain ⟨owner', h', hs', -⟩ := hinv
    exact ⟨owner', h', hs'⟩
  · rintro g key b i p w g₁ ⟨owner, h, hs, hentry⟩ - hg₁ hb hp hm
    have hphi : ∀ b', g.graph.block? key = some b' → b'.phis[i]? = some p := by
      intro b' hb'
      rw [hb] at hb'
      cases hb'
      exact hp
    have hgrown := hm.grown hphi (N := fun _ => True) (D := fun _ => False) (n := 0)
      (fun _ _ _ _ _ => trivial) (Nat.zero_le _)
    exact ⟨_, h.dropped hm hg₁ hphi (h.ofPhi_mem hb (mem_of_getElem? hp)),
      hs.dropped hm hb hp hentry,
      isSome_entry (R := fun _ => Extends _ _ _ _) hgrown.header hgrown.block hentry⟩

theorem nodup_eraseDups {α : Type} [DecidableEq α] (as : List α) : as.eraseDups.Nodup := by
  induction hn : as.length using Nat.strong_induction_on generalizing as with
  | _ n ih =>
    cases as with
    | nil => simp
    | cons a as =>
      rw [eraseDups_cons]
      refine nodup_cons.mpr ⟨?_, ih _ ?_ _ rfl⟩
      · simp [mem_eraseDups]
      · rw [← hn]
        exact Nat.lt_succ_of_le (length_filter_le _ _)

theorem nodup_escaping (f : Function) : ((escaping f).map Definition.reg).Nodup := by
  have hsub : ∀ rs : List Reg, ((rs.filterMap fun r =>
      (definitions f).reverse.find? fun d => d.reg = r).map Definition.reg).Sublist rs := by
    intro rs
    induction rs with
    | nil => simp
    | cons r rs ih =>
      rw [filterMap_cons]
      split
      · exact ih.cons r
      · next d hd =>
        have hreg : d.reg = r := by simpa using find?_some hd
        rw [map_cons, hreg]
        exact ih.cons_cons r
  exact ((nodup_eraseDups _).filter _).sublist (hsub _)

theorem exists_escaping (hd : d ∈ definitions f)
    (hr : d.reg ∈ f.graph.blockList.flatMap (blockEscaping (definitions f).reverse)) :
    ∃ d' ∈ escaping f, d'.reg = d.reg := by
  obtain ⟨d', hd'⟩ := isSome_iff_exists.mp (find?_isSome.mpr
    ⟨d, mem_reverse.mpr hd, decide_eq_true rfl⟩ :
      ((definitions f).reverse.find? fun e => e.reg = d.reg).isSome)
  refine ⟨d', mem_filterMap.mpr ⟨d.reg, mem_filter.mpr ⟨?_, ?_⟩, hd'⟩,
    by simpa using find?_some hd'⟩
  · exact mem_eraseDups.mpr (List.mem_map_of_mem hd)
  · simpa using hr

theorem cell_or_definition {r : Reg} (hn : f.Numbered) (hb : f.graph.block? l = some b)
    (hr : r ∈ b.defs) :
    f.Allocates r ∨ ∃ d ∈ definitions f, d.reg = r ∧ d.block = l := by
  have hm : b ∈ f.graph.blockList := Table.mem_values_iff.mpr ⟨l, hb⟩
  have hid := hn.blockKey l b hb
  rcases mem_append.mp hr with hr | hr
  · obtain ⟨p, hp, rfl⟩ := List.mem_map.mp hr
    exact .inr ⟨_, mem_flatMap.mpr ⟨b, hm, mem_append_left _
      (List.mem_map_of_mem hp)⟩, rfl, hid⟩
  · obtain ⟨o, ho, hdest⟩ := mem_filterMap.mp hr
    cases hal : o.kind.isAlloca with
    | true =>
      cases hk : o.kind with
      | alloca d ty =>
        rw [hk] at hdest
        cases hdest
        exact .inl (allocates_of_block hb ho hk)
      | _ =>
        rw [hk] at hal
        cases hal
    | false =>
      have hd : (⟨r, b.id, o.id, false, (f.regTypes.get? r).getD .i64, o.tags⟩ : Definition) ∈
          blockDefinitions f b :=
        mem_append_right _ (mem_filterMap.mpr ⟨o, ho, by simp [hal, hdest]⟩)
      exact .inr ⟨_, mem_flatMap.mpr ⟨b, hm, hd⟩, rfl, hid⟩

theorem block_of_definition (hn : f.Numbered) (hd : d ∈ definitions f)
    (hb : f.graph.block? l = some b) (hr : d.reg ∈ b.defs) : d.block = l := by
  by_contra hne
  exact (Definition.in_of_mem hn hd).not_mem_defs hn (Ne.symm hne) hb hr

theorem exists_escaping_of_read {r : Reg} (hn : f.Numbered) (hb : f.graph.block? l = some b)
    (hr : r ∈ (b.instructions.flatMap fun o => o.kind.uses) ++ b.terminator.kind.uses)
    (hd : d ∈ definitions f) (hdr : d.reg = r) (hl : d.block ≠ l) :
    ∃ d' ∈ escaping f, d'.reg = r ∧ d'.block ≠ l := by
  have hblock : ∀ d' ∈ definitions f, d'.reg = r → d'.block ≠ l := by
    rintro d' hd' rfl
    obtain ⟨s, hs, hm⟩ := (Definition.in_of_mem hn hd).mem_defs
    rw [block_of_definition hn hd' hs (hdr ▸ hm)]
    exact hl
  obtain ⟨d', hd', hreg⟩ := exists_escaping hd (Table.mem_flatMap_values.mpr
    ⟨l, b, hb, mem_append_right _ (mem_filter.mpr
      ⟨hdr ▸ hr, by
        obtain ⟨e, he⟩ := isSome_iff_exists.mp (find?_isSome.mpr
          ⟨d, mem_reverse.mpr hd, decide_eq_true rfl⟩ :
            ((definitions f).reverse.find? fun e => e.reg = d.reg).isSome)
        have hereg : e.reg = d.reg := by simpa using find?_some he
        have hemem := mem_reverse.mp (mem_of_find?_eq_some he)
        rw [he, any_some, hn.blockKey l b hb]
        exact decide_eq_true (hblock e hemem (hereg.trans hdr))⟩)⟩)
  exact ⟨d', hd', hreg.trans hdr, hblock d' (definitions_of_escaping hd') (hreg.trans hdr)⟩

theorem exists_escaping_of_phi {r : Reg} {a : BlockId} {p : Operation Phi}
    (hb : f.graph.block? l = some b) (hp : p ∈ b.phis) (hr : (a, .reg r) ∈ p.kind.incoming)
    (hd : d ∈ definitions f) (hdr : d.reg = r) : ∃ d' ∈ escaping f, d'.reg = r := by
  obtain ⟨d', hd', hreg⟩ := exists_escaping hd (Table.mem_flatMap_values.mpr
    ⟨l, b, hb, mem_append_left _ (mem_flatMap.mpr
      ⟨p, hp, mem_filterMap.mpr ⟨(a, .reg r), hr, by rw [hdr]; rfl⟩⟩)⟩)
  exact ⟨d', hd', hreg.trans hdr⟩

theorem Settled.start (hn : f.Numbered)
    (hbody : ∀ {l b}, f.graph.block? l = some b → ∀ {pre o post},
      b.instructions = pre ++ o :: post → ∀ r ∈ o.kind.uses,
        Readable P f [] l ((b.phis.map fun p => p.kind.dest) ++ dests pre) r ∨
          ∃ d ∈ definitions f, d.reg = r ∧ d.block ≠ l)
    (hexit : ∀ {l b}, f.graph.block? l = some b → ∀ r ∈ b.terminator.kind.uses,
      Readable P f [] l b.defs r ∨ ∃ d ∈ definitions f, d.reg = r ∧ d.block ≠ l)
    (hphis : ∀ {l b}, f.graph.block? l = some b → ∀ p ∈ b.phis, ∀ {a r},
      (a, .reg r) ∈ p.kind.incoming → ∀ {s}, f.graph.block? a = some s →
        Readable P f [] a s.defs r ∨ ∃ d ∈ definitions f, d.reg = r) :
    Settled P (escaping f) f := by
  have hnone : ∀ {l before r}, Readable P f [] l before r →
      Readable P f (escaping f) l before r := by
    intro l before r h
    cases h with
    | here h => exact .here h
    | given h => exact .given h
    | cell h => exact .cell h
    | later hd => cases hd
  constructor
  case body =>
    intro l b hb pre o post hsplit r hr
    rcases hbody hb hsplit r hr with h | ⟨d, hd, hdr, hl⟩
    · exact hnone h
    · have hm : r ∈ (b.instructions.flatMap fun o => o.kind.uses) ++ b.terminator.kind.uses :=
        mem_append_left _ (mem_flatMap.mpr ⟨o, by simp [hsplit], hr⟩)
      obtain ⟨d', hd', hreg, hl'⟩ := exists_escaping_of_read hn hb hm hd hdr hl
      exact .later hd' hreg hl'
  case exit =>
    intro l b hb r hr
    rcases hexit hb r hr with h | ⟨d, hd, hdr, hl⟩
    · exact hnone h
    · obtain ⟨d', hd', hreg, hl'⟩ :=
        exists_escaping_of_read hn hb (mem_append_right _ hr) hd hdr hl
      exact .later hd' hreg hl'
  case phis =>
    intro l b hb p hp a r hr s hs
    rcases hphis hb p hp hr hs with h | ⟨d, hd, hdr⟩
    · exact .inl h
    · exact .inr (exists_escaping_of_phi hb hp hr hd hdr)

theorem demote_progress {n : SpillCount} (hn : f.Numbered) (hs : Settled P (escaping f) f)
    (hf : demote f = .ok (.ok (g, n))) :
    ∃ done owner, Progress f done owner g ∧ Settled P [] g ∧ g.Bare := by
  unfold demote at hf
  split at hf
  · cases hf
  · next hfault =>
    obtain ⟨f₁, h₁, hf⟩ := bind_eq_ok.mp hf
    obtain ⟨⟨f₂, count⟩, h₂, hf⟩ := bind_eq_ok.mp hf
    cases hf
    have hentry : (f.graph.block? f.graph.entry).isSome := by
      unfold fault? at hfault
      split at hfault
      · cases hfault
      · next he =>
        obtain ⟨b, hb⟩ := Table.contains_iff.mp (by simpa using he)
        exact isSome_iff_exists.mpr ⟨b, hb⟩
    have h₀ : Progress f [] (fun _ => none) f :=
      ⟨hn, Nat.le_refl _, .refl .refl f, by simp⟩
    obtain ⟨done, owner, hp₁, hs₁⟩ := demoteValues_progress h₀ hs
      (fun d hd => Definition.in_of_mem hn (definitions_of_escaping hd))
      (fun d hd => ⟨hd, (Definition.in_of_mem hn (definitions_of_escaping hd)).lt_nextReg hn⟩)
      (nodup_escaping f) (by simp) hentry h₁
    obtain ⟨owner', hp₂, hs₂⟩ := demotePhis_progress hp₁ hs₁
      (isSome_entry (R := fun _ => Extends _ _ _ _) hp₁.grown.header hp₁.grown.block hentry) h₂
    exact ⟨done, owner', hp₂, hs₂, demotePhis_bare hp₁.numbered h₂⟩

/-- The registers that are read anywhere in a block: those that are not defined at all, and those
that are defined in the block. -/
def Local (f : Function) (l : BlockId) (r : Reg) : Prop :=
  f.isParam r = true ∨ (r ∉ f.defs ∧ r.index < f.nextReg) ∨
    ∃ b, f.graph.block? l = some b ∧ r ∈ b.defs

theorem mem_params_iff {r : Reg} :
    f.isParam r = true ↔ r ∈ f.signature.params.map Param.reg := by
  simp [Function.isParam]

theorem local_or_definition {r : Reg} (hn : f.Numbered) (hr : r.index < f.nextReg) (l : BlockId) :
    Local f l r ∨ f.Allocates r ∨ ∃ d ∈ definitions f, d.reg = r ∧ d.block ≠ l := by
  by_cases hdef : r ∈ f.defs
  · rcases mem_append.mp hdef with hp | hb
    · exact .inl (.inl (mem_params_iff.mpr hp))
    · obtain ⟨k, b, hk, hrb⟩ := Table.mem_flatMap_values.mp hb
      by_cases hkl : k = l
      · exact .inl (.inr (.inr ⟨b, hkl ▸ hk, hrb⟩))
      · rcases cell_or_definition hn hk hrb with hcell | ⟨d, hd, hreg, hblock⟩
        · exact .inr (.inl hcell)
        · exact .inr (.inr ⟨d, hd, hreg, fun h => hkl (hblock.symm.trans h)⟩)
  · exact .inl (.inr (.inl ⟨hdef, hr⟩))

theorem settled_local (hn : f.Numbered) (hr : ∀ r ∈ f.uses, r.index < f.nextReg) :
    Settled (Local f) (escaping f) f := by
  have hcases : ∀ {l l' : BlockId} {b : Block} {before : List Reg} {r : Reg},
      f.graph.block? l = some b → r ∈ b.uses → Readable (Local f) f [] l' before r ∨
        ∃ d ∈ definitions f, d.reg = r ∧ d.block ≠ l' := by
    intro l l' b before r hb hrb
    have hlt := hr r (Table.mem_flatMap_values.mpr ⟨l, b, hb, hrb⟩)
    rcases local_or_definition hn hlt l' with h | h | h
    · exact .inl (.given h)
    · exact .inl (.cell h)
    · exact .inr h
  refine Settled.start hn ?_ ?_ ?_
  · intro l b hb pre o post hsplit r hro
    refine hcases hb (mem_append_left _ (mem_append_right _ ?_))
    exact mem_flatMap.mpr ⟨o, by simp [hsplit], hro⟩
  · intro l b hb r hrt
    exact hcases hb (mem_append_right _ hrt)
  · intro l b hb p hp a r hra s hs
    have hrb : r ∈ b.uses := mem_append_left _ (mem_append_left _
      (mem_flatMap.mpr ⟨p, hp, mem_filterMap.mpr ⟨(a, .reg r), hra, rfl⟩⟩))
    exact (hcases hb hrb).imp_right fun h => h.imp fun d hd => ⟨hd.1, hd.2.1⟩

theorem demote_of_local (hn : f.Numbered) (hfault : fault? f = none) (hbare : f.Bare)
    (hread : ∀ k b, f.graph.block? k = some b → ∀ r ∈ b.uses,
      f.isParam r = true ∨ f.Allocates r ∨ r ∈ b.defs ∨ r ∉ f.defs) :
    demote f = .ok (.ok (f, ⟨0, 0⟩)) := by
  have hphis : phiList f = [] := by
    refine flatMap_eq_nil_iff.mpr fun b hb => ?_
    obtain ⟨k, hk⟩ := Table.mem_values_iff.mp hb
    rw [hbare k b hk, map_nil]
  have hregs : f.graph.blockList.flatMap (blockEscaping (definitions f).reverse) = [] := by
    refine flatMap_eq_nil_iff.mpr fun b hb => ?_
    obtain ⟨k, hk⟩ := Table.mem_values_iff.mp hb
    rw [blockEscaping, hbare k b hk, flatMap_nil, nil_append, filter_eq_nil_iff]
    intro r hr hany
    obtain ⟨d, hfind, hne⟩ := (Option.any_eq_true _ _).mp hany
    have hd : d ∈ definitions f := mem_reverse.mp (mem_of_find?_eq_some hfind)
    have hdr : d.reg = r := by simpa using find?_some hfind
    obtain ⟨s, hs, hms⟩ := (Definition.in_of_mem hn hd).mem_defs
    have huse : r ∈ b.uses := by
      rw [Block.uses, append_assoc]
      exact mem_append_right _ hr
    rcases hread k b hk r huse with hp | hcell | hdef | hnone
    · refine (nodup_append.mp hn.defOnce).2.2 _ (mem_params_iff.mp hp) _ ?_ hdr.symm
      exact Table.mem_flatMap_values.mpr ⟨_, s, hs, hms⟩
    · exact hn.not_allocates hd (hdr ▸ hcell)
    · have hblock := block_of_definition hn hd hk (hdr ▸ hdef)
      rw [hn.blockKey k b hk, hblock] at hne
      simp at hne
    · exact hnone (hdr ▸ (defs_sublist_of_block hs).subset hms)
  have hnil : escaping f = [] := by
    simp [escaping, hregs]
  rw [demote, hfault, hnil]
  have hend : demotePhis (phiList f) f 0 = .ok (f, 0) := by
    rw [hphis]
    rfl
  simp only [demoteValues, length_nil]
  exact bind_eq_ok.mpr ⟨f, rfl, bind_eq_ok.mpr ⟨(f, 0), hend, rfl⟩⟩

theorem fault?_eq_none_iff : fault? f = none ↔ (f.graph.block? f.graph.entry).isSome ∧
    ∀ k b, f.graph.block? k = some b → f.graph.entry ∉ b.successors := by
  have hcontains : f.graph.blocks.contains f.graph.entry =
      (f.graph.block? f.graph.entry).isSome := rfl
  have hpreds : (f.graph.predecessors f.graph.entry).isEmpty = true ↔
      ∀ k b, f.graph.block? k = some b → f.graph.entry ∉ b.successors := by
    rw [Graph.predecessors, List.isEmpty_iff, map_eq_nil_iff, filter_eq_nil_iff]
    constructor
    · intro h k b hb
      simpa using h b (Table.mem_values_iff.mpr ⟨k, hb⟩)
    · intro h b hb
      obtain ⟨k, hk⟩ := Table.mem_values_iff.mp hb
      simpa using h k b hk
  rw [← hpreds, ← hcontains, fault?]
  cases f.graph.blocks.contains f.graph.entry <;>
    cases (f.graph.predecessors f.graph.entry).isEmpty <;> simp

section

variable {N : Operation Instruction → Prop}
  {A : Operation Instruction → Operation Instruction → Prop} {D : Reg → Prop} {n : Nat}

theorem Grown.fault?_eq_none (h : Grown N A D n f g) (hf : fault? f = none) : fault? g = none := by
  rw [fault?_eq_none_iff] at hf ⊢
  have hentry : g.graph.entry = f.graph.entry := congrArg Header.entry h.header
  refine ⟨isSome_entry (R := fun _ => Extends N A D n) h.header h.block hf.1, fun k b hb => ?_⟩
  obtain ⟨b₀, hb₀, hext⟩ := rel_some_right (h.block k) hb
  rw [hentry, Block.successors, hext.exit.successors]
  exact hf.2 k b₀ hb₀

theorem Grown.mem_defs (h : Grown N A D n f g) {r : Reg} (hr : r ∈ g.defs) :
    r ∈ f.defs ∨ n ≤ r.index.toNat := by
  have hsig : g.signature = f.signature := congrArg Header.signature h.header
  rcases mem_append.mp hr with hr | hr
  · exact .inl (mem_append_left _ (hsig ▸ hr))
  · obtain ⟨k, b, hk, hrb⟩ := Table.mem_flatMap_values.mp hr
    obtain ⟨b₀, hb₀, hext⟩ := rel_some_right (h.block k) hk
    exact (hext.fresh r hrb).imp_left fun hm => (defs_sublist_of_block hb₀).subset hm

end

theorem Progress.cases_readable (h : Progress f done owner g) (hb : g.graph.block? l = some b)
    {r : Reg} (hr : Readable (Local f) g [] l before r) (hbefore : before ⊆ b.defs) :
    g.isParam r = true ∨ g.Allocates r ∨ r ∈ b.defs ∨ r ∉ g.defs := by
  cases hr with
  | here hr => exact .inr (.inr (.inl (hbefore hr)))
  | cell hr => exact .inr (.inl hr)
  | later hd => cases hd
  | given hr =>
    rcases hr with hp | ⟨hundef, hlt⟩ | ⟨b₀, hb₀, hrb⟩
    · have hsig : g.signature = f.signature := congrArg Header.signature h.grown.header
      exact .inl (by rwa [Function.isParam, hsig])
    · refine .inr (.inr (.inr fun hdef => ?_))
      rcases h.grown.mem_defs hdef with hm | hm
      · exact hundef hm
      · exact Nat.lt_irrefl _ (Nat.lt_of_lt_of_le (UInt32.lt_iff_toNat_lt.mp hlt) hm)
    · obtain ⟨b', hb', hext⟩ := rel_some (h.grown.block l) hb₀
      rw [hb] at hb'
      cases hb'
      exact .inr (.inr (.inl (hext.defs hrb)))

/-- After the values of a function were moved to memory there are no phis, every register is read
in the block that defines it, unless it is a parameter or a cell or has no definition, what was put
in bears the notes of the values that it moves, and there is nothing left to be moved. -/
theorem demote_settles {n : SpillCount} (hn : f.Numbered)
    (hr : ∀ r ∈ f.uses, r.index < f.nextReg) (hf : demote f = .ok (.ok (g, n))) :
    g.Bare ∧
    (∀ k b, g.graph.block? k = some b → ∀ r ∈ b.uses,
      g.isParam r = true ∨ g.Allocates r ∨ r ∈ b.defs ∨ r ∉ g.defs) ∧
    (∃ owner : Reg → Option (Definition × Bool), ∀ o ∈ g.instructions, o.id ∉ f.opIds →
      ∃ s d phi, owner s = some (d, phi) ∧ d ∈ definitions f ∧ Serves d s phi o.kind ∧
        o.tags = d.tags) ∧
    demote g = .ok (.ok (g, ⟨0, 0⟩)) := by
  obtain ⟨done, owner, hp, hs, hbare⟩ := demote_progress hn (settled_local hn hr) hf
  have hread : ∀ k b, g.graph.block? k = some b → ∀ r ∈ b.uses,
      g.isParam r = true ∨ g.Allocates r ∨ r ∈ b.defs ∨ r ∉ g.defs := by
    intro k b hb r hr
    rw [Block.uses, hbare k b hb, flatMap_nil, nil_append] at hr
    rcases mem_append.mp hr with hr | hr
    · obtain ⟨o, ho, hro⟩ := mem_flatMap.mp hr
      obtain ⟨pre, post, hsplit⟩ := append_of_mem ho
      have hsub : dests pre ⊆ dests b.instructions := by
        rw [hsplit, dests_append]
        exact subset_append_left _ _
      exact hp.cases_readable hb (hs.body hb hsplit r hro) (append_subset_append hsub)
    · exact hp.cases_readable hb (hs.exit hb r hr) fun _ hx => hx
  have hfault : fault? f = none := by
    unfold demote at hf
    split at hf
    · cases hf
    · assumption
  refine ⟨hbare, hread, ⟨owner, fun o ho hid => ?_⟩,
    demote_of_local hp.numbered (hp.grown.fault?_eq_none hfault) hbare hread⟩
  · obtain ⟨l, b, hb, ho⟩ := Function.mem_instructions.mp ho
    obtain ⟨b₀, hb₀, hext⟩ := rel_some_right (hp.grown.block l) hb
    rcases hext.instructions.cases_mem ho with ⟨s, d, phi, hown, hserves, htags⟩ | ⟨p, hpm, hc⟩
    · exact ⟨s, d, phi, hown, (hp.owned s d phi hown).1, hserves, htags⟩
    · refine absurd ((opIds_sublist_of_block hb₀).subset ?_) hid
      rw [hc.id, Block.opIds_eq]
      exact mem_append_left _ (mem_append_right _ (List.mem_map_of_mem hpm))

def juggler : Function :=
  { Function.create ⟨0⟩ "juggle" [("x", .i64)] .i64 with
    nextReg := 4
    graph := ⟨.ofList [
      (⟨0⟩, ⟨⟨0⟩, none, [], [], .plain ⟨0⟩ (.branch ⟨1⟩)⟩),
      (⟨1⟩, ⟨⟨1⟩, none,
        [⟨⟨1⟩, ⟨⟨1⟩, [(⟨0⟩, .reg ⟨0⟩), (⟨1⟩, .reg ⟨2⟩)], .i64⟩, ⟨[⟨"hand", .str "left"⟩]⟩⟩,
          ⟨⟨2⟩, ⟨⟨2⟩, [(⟨0⟩, .const (.i64 1)), (⟨1⟩, .reg ⟨1⟩)], .i64⟩,
            ⟨[⟨"hand", .str "right"⟩]⟩⟩],
        [.plain ⟨3⟩ (.compare ⟨3⟩ .lt (.reg ⟨1⟩) (.const (.i64 10)))],
        .plain ⟨4⟩ (.condBranch (.reg ⟨3⟩) ⟨1⟩ ⟨2⟩)⟩),
      (⟨2⟩, ⟨⟨2⟩, none, [], [], .plain ⟨5⟩ (.ret (some (.reg ⟨2⟩)))⟩)], ⟨0⟩, 3, 6⟩ }

theorem numbered_juggler : juggler.Numbered := by
  have hc : juggler.Counted True := by decide +kernel
  exact ⟨hc.blockKey, hc.blockBound trivial, hc.opBound, by decide +kernel, hc.opOnce,
    by decide +kernel⟩

/-- The values of `juggler` have been moved once. -/
theorem demote_settles_juggler :
    juggler.Numbered ∧ (∀ r ∈ juggler.uses, r.index < juggler.nextReg) ∧
    ∃ g, demote juggler = .ok (.ok (g, ⟨2, 2⟩)) ∧ g.Bare ∧
      demote g = .ok (.ok (g, ⟨0, 0⟩)) := by
  have hn := numbered_juggler
  have hr : ∀ r ∈ juggler.uses, r.index < juggler.nextReg := by decide +kernel
  have hend : (demote juggler).toOption.map (fun x => x.toOption.map Prod.snd) =
      some (some ⟨2, 2⟩) := by
    decide +kernel
  cases hrun : demote juggler with
  | error a =>
    rw [hrun] at hend
    cases hend
  | ok x =>
    rw [hrun] at hend
    cases x with
    | error a => cases hend
    | ok y =>
      obtain ⟨g, c⟩ := y
      cases hend
      obtain ⟨hbare, -, -, hagain⟩ := demote_settles hn hr hrun
      exact ⟨hn, hr, g, rfl, hbare, hagain⟩

end Spill

end SiteFusion
