import Mathlib.Data.List.TakeWhile
import SiteFusion.Proofs.Behaviour
import SiteFusion.Proofs.Frames

namespace SiteFusion

def Operation.told {κ : Type} (o : Operation κ) : κ × Tags := (o.kind, o.tags)

theorem Operation.told_eq {κ : Type} {o : Operation κ} {k : κ} {tags : Tags} :
    o.told = (k, tags) ↔ o.kind = k ∧ o.tags = tags := by
  simp [told]

theorem Block.take_allocaCount (b : Block) : b.instructions.take b.allocaCount =
    b.instructions.takeWhile fun o => o.kind.isAlloca := by
  have hsplit := List.takeWhile_append_dropWhile (p := fun o : Operation Instruction =>
    o.kind.isAlloca) (l := b.instructions)
  exact (congrArg _ hsplit.symm).trans List.take_left

theorem Block.drop_allocaCount (b : Block) : b.instructions.drop b.allocaCount =
    b.instructions.dropWhile fun o => o.kind.isAlloca := by
  have hsplit := List.takeWhile_append_dropWhile (p := fun o : Operation Instruction =>
    o.kind.isAlloca) (l := b.instructions)
  exact (congrArg _ hsplit.symm).trans List.drop_left

variable {d : Reg}

theorem mem_regs_replace {os : List Operand} {v r : Reg}
    (h : r ∈ (os.map fun o => o.replace d (.reg v)).filterMap Operand.reg?) :
    r = v ∨ r ∈ os.filterMap Operand.reg? ∧ r ≠ d := by
  simp only [List.mem_filterMap, List.mem_map] at h ⊢
  obtain ⟨_, ⟨o, ho, rfl⟩, hr⟩ := h
  by_cases hod : o = .reg d
  · subst hod
    simp only [Operand.replace, Operand.isReg, decide_true, ↓reduceIte, Operand.reg?,
      Option.some.injEq] at hr
    exact .inl hr.symm
  · simp only [Operand.replace, Operand.isReg, hod, decide_false, Bool.false_eq_true,
      ↓reduceIte] at hr
    refine .inr ⟨⟨o, ho, hr⟩, ?_⟩
    rintro rfl
    cases o with
    | const c => cases hr
    | reg r' => cases hr; exact hod rfl

theorem mem_uses_replaceUse {i : Instruction} {v r : Reg} (h : r ∈ (i.replaceUse d (.reg v)).uses) :
    r = v ∨ r ∈ i.uses ∧ r ≠ d := by
  have hops : (i.replaceUse d (.reg v)).operands =
      i.operands.map fun o => o.replace d (.reg v) := by
    cases i <;> simp [Instruction.replaceUse, Instruction.mapOperands, Instruction.operands]
  rw [Instruction.uses, hops] at h
  exact mem_regs_replace h

theorem mem_uses_terminator_replaceUse {t : Terminator} {v r : Reg}
    (h : r ∈ (t.replaceUse d (.reg v)).uses) : r = v ∨ r ∈ t.uses ∧ r ≠ d := by
  have hops : (t.replaceUse d (.reg v)).operands =
      t.operands.map fun o => o.replace d (.reg v) := by
    cases t with
    | ret o => cases o <;> rfl
    | _ => rfl
  rw [Terminator.uses, hops] at h
  exact mem_regs_replace h

theorem Instruction.isAlloca_mapOperands (i : Instruction) (φ : Operand → Operand) :
    (i.mapOperands φ).isAlloca = i.isAlloca := by
  cases i <;> rfl

theorem Instruction.isAlloca_replaceUse (i : Instruction) (r : Reg) (o : Operand) :
    (i.replaceUse r o).isAlloca = i.isAlloca :=
  i.isAlloca_mapOperands _

/-- The exit of a block, or the same with the register read from a copy. -/
def ReloadedExit (d : Reg) (tail : List Reg) (t t' : Terminator) : Prop :=
  t' = t ∨ ∃ v ∈ tail, t' = t.replaceUse d (.reg v)

/-- What a phi reads, or the same with the register read from a copy. -/
def ReloadedPhi (d : Reg) (tail : BlockId → List Reg) (q q' : Phi) : Prop :=
  q'.dest = q.dest ∧ List.Forall₂ (fun e e' => e'.1 = e.1 ∧
    (e'.2 = e.2 ∨ e.2 = .reg d ∧ ∃ v ∈ tail e.1, e'.2 = .reg v)) q.incoming q'.incoming

namespace Spill

/-- The operations of a block before and after a value was moved to cell `w`. They stay as they are
or read what was loaded before them, and `tail` is loaded at the end. Once all is `stored`, a store
follows each definition of the value. One block allocates the cell, after its other allocations. -/
inductive Spills (d : Definition) (w : Reg) (stored : Bool) (tail : List Reg) :
    Bool → List (Operation Instruction) → List (Operation Instruction) → Prop
  | done {loads} (h : loads.map Operation.told = tail.map fun v => (.load v (.reg w) d.ty, d.tags))
      (hv : ∀ v ∈ tail, w.index.toNat < v.index.toNat) : Spills d w stored tail false [] loads
  | keep {here o r r'} (hh : here = true → o.kind.isAlloca = true)
      (ho : stored = true → o.kind.dest? ≠ some d.reg)
      (h : Spills d w stored tail here r r') : Spills d w stored tail here (o :: r) (o :: r')
  | slot {o r r'} (ho : o.told = (.alloca w d.ty, d.tags))
      (hr : ∀ p ∈ r.head?, p.kind.isAlloca = false)
      (h : Spills d w stored tail false r r') : Spills d w stored tail true r (o :: r')
  | reload {o load v r r'} (ho : o.kind.dest? ≠ some d.reg)
      (hl : load.told = (.load v (.reg w) d.ty, d.tags)) (hv : w.index.toNat < v.index.toNat)
      (h : Spills d w stored tail false r r') :
    Spills d w stored tail false (o :: r)
      (load :: o.map (fun i => i.replaceUse d.reg (.reg v)) :: r')
  | define {o store r r'} (hstored : stored = true) (ho : o.kind.dest? = some d.reg)
      (hs : store.told = (.store (.reg w) (.reg d.reg), d.tags))
      (h : Spills d w stored tail false r r') :
    Spills d w stored tail false (o :: r) (o :: store :: r')

/-- A block before and after a value was moved to a cell, where `tail` is what each block loads at
its end. -/
structure Changed (d : Definition) (w : Reg) (entry : BlockId) (stored : Bool)
    (tail : BlockId → List Reg) (l : BlockId) (b b' : Block) : Prop where
  id : b'.id = b.id
  phis : List.Forall₂ (fun q q' => q'.id = q.id ∧ q'.tags = q.tags ∧ q'.kind.ty = q.kind.ty ∧
    ReloadedPhi d.reg tail q.kind q'.kind) b.phis b'.phis
  instructions : Spills d w stored (tail l) (decide (l = entry)) b.instructions b'.instructions
  exitId : b'.terminator.id = b.terminator.id
  exitTags : b'.terminator.tags = b.terminator.tags
  exit : ReloadedExit d.reg (tail l) b.terminator.kind b'.terminator.kind

namespace Spills

variable {d : Definition} {w : Reg} {stored here : Bool} {tail : List Reg}
  {r r' : List (Operation Instruction)}

theorem refl (r : List (Operation Instruction)) : Spills d w false [] false r r := by
  induction r with
  | nil => exact .done rfl (by simp)
  | cons o r ih => exact .keep (by simp) (by simp) ih

theorem push (h : Spills d w stored tail here r r') {load : Operation Instruction} {v : Reg}
    (hl : load.told = (.load v (.reg w) d.ty, d.tags)) (hv : w.index.toNat < v.index.toNat) :
    Spills d w stored (tail ++ [v]) here r (r' ++ [load]) := by
  induction h with
  | done hloads htail =>
    refine .done ?_ fun u hu => ?_
    · simp [hloads, hl]
    · rcases List.mem_append.mp hu with hu | hu
      · exact htail u hu
      · rw [List.mem_singleton.mp hu]
        exact hv
  | keep hh ho _ ih => exact .keep hh ho ih
  | slot ho hr _ ih => exact .slot ho hr ih
  | reload ho hl' hv' _ ih => exact .reload ho hl' hv' ih
  | define hst ho hs _ ih => exact .define hst ho hs ih

theorem insertSlot {o : Operation Instruction} (ho : o.told = (.alloca w d.ty, d.tags))
    (r : List (Operation Instruction)) :
    Spills d w false [] true r ((r.takeWhile fun p => p.kind.isAlloca) ++
      o :: r.dropWhile fun p => p.kind.isAlloca) := by
  induction r with
  | nil => exact .slot ho (by simp) (refl _)
  | cons p r ih =>
    cases hp : p.kind.isAlloca with
    | true =>
      simp only [List.takeWhile_cons, List.dropWhile_cons, hp, ↓reduceIte]
      exact .keep (fun _ => hp) (by simp) ih
    | false =>
      simp only [List.takeWhile_cons, List.dropWhile_cons, hp, Bool.false_eq_true, ↓reduceIte]
      exact .slot ho (by simp [hp]) (refl _)

theorem strengthen (h : Spills d w false tail here r r') (hr : ∀ o ∈ r, o.kind.dest? ≠ some d.reg) :
    Spills d w true tail here r r' := by
  induction h with
  | done hloads htail => exact .done hloads htail
  | keep hh _ _ ih =>
    exact .keep hh (fun _ => hr _ (by simp)) (ih fun o ho => hr o (List.mem_cons_of_mem _ ho))
  | slot ho hhead _ ih => exact .slot ho hhead (ih hr)
  | reload ho hl hv _ ih =>
    exact .reload ho hl hv (ih fun o ho => hr o (List.mem_cons_of_mem _ ho))
  | define hst _ _ _ => cases hst

theorem exists_id (h : Spills d w stored tail here r r') {o : Operation Instruction} (ho : o ∈ r) :
    ∃ o' ∈ r', o'.id = o.id := by
  induction h with
  | done => cases ho
  | @keep _ p r r' _ _ _ ih | @define p _ r r' _ _ _ _ ih =>
    rcases List.mem_cons.mp ho with rfl | ho
    · exact ⟨o, by simp, rfl⟩
    · obtain ⟨o', ho', hid⟩ := ih ho
      exact ⟨o', by simp [ho'], hid⟩
  | slot _ _ _ ih =>
    obtain ⟨o', ho', hid⟩ := ih ho
    exact ⟨o', by simp [ho'], hid⟩
  | @reload p load v r r' _ _ _ _ ih =>
    rcases List.mem_cons.mp ho with rfl | ho
    · exact ⟨o.map fun i => i.replaceUse d.reg (.reg v), by simp, rfl⟩
    · obtain ⟨o', ho', hid⟩ := ih ho
      exact ⟨o', by simp [ho'], hid⟩

theorem dest?_ne_of_nodup {o p : Operation Instruction} {x : Reg}
    (h : ((o :: r).filterMap fun o => o.kind.dest?).Nodup) (ho : o.kind.dest? = some x)
    (hp : p ∈ r) : p.kind.dest? ≠ some x := by
  intro hpx
  rw [List.filterMap_cons, ho] at h
  exact (List.nodup_cons.mp h).1 (List.mem_filterMap.mpr ⟨p, hp, hpx⟩)

theorem insertStore (h : Spills d w false tail here r r') {store : Operation Instruction}
    (hs : store.told = (.store (.reg w) (.reg d.reg), d.tags))
    (hdef : ∃ o ∈ r, o.id = d.op ∧ o.kind.dest? = some d.reg ∧ o.kind.isAlloca = false)
    (hone : (r.filterMap fun o => o.kind.dest?).Nodup) (hid : (r'.map Operation.id).Nodup) :
    ∃ i, r'.findIdx? (fun o => o.id = d.op) = some i ∧
      Spills d w true tail here r (r'.take (i + 1) ++ store :: r'.drop (i + 1)) := by
  obtain ⟨a, ha, hop, hdest, hcell⟩ := hdef
  induction h with
  | done => cases ha
  | @keep here p r r' hh _ h ih =>
    obtain ⟨hp, hid⟩ := List.nodup_cons.mp hid
    rcases List.mem_cons.mp ha with rfl | ha
    · have hhere : here = false := by
        cases here
        · rfl
        · exact absurd (hh rfl) (by simp [hcell])
      subst hhere
      exact ⟨0, by simp [List.findIdx?_cons, hop],
        .define rfl hdest hs (h.strengthen fun o ho => dest?_ne_of_nodup hone hdest ho)⟩
    · have hpd : p.kind.dest? ≠ some d.reg := fun hpd => dest?_ne_of_nodup hone hpd ha hdest
      have hne : p.id ≠ d.op := by
        intro hpo
        obtain ⟨a', ha', hida⟩ := h.exists_id ha
        exact hp (List.mem_map.mpr ⟨a', ha', by rw [hida, hop, hpo]⟩)
      have hone' : (r.filterMap fun o => o.kind.dest?).Nodup :=
        hone.sublist ((List.sublist_cons_self p r).filterMap _)
      obtain ⟨i, hi, hspill⟩ := ih hone' hid ha
      refine ⟨i + 1, by simp [List.findIdx?_cons, hne, hi], .keep hh (fun _ => hpd) hspill⟩
  | @slot p r r' ho hhead h ih =>
    obtain ⟨hp, hid⟩ := List.nodup_cons.mp hid
    have hne : p.id ≠ d.op := by
      intro hpo
      obtain ⟨a', ha', hida⟩ := h.exists_id ha
      exact hp (List.mem_map.mpr ⟨a', ha', by rw [hida, hop, hpo]⟩)
    obtain ⟨i, hi, hspill⟩ := ih hone hid ha
    exact ⟨i + 1, by simp [List.findIdx?_cons, hne, hi], .slot ho hhead hspill⟩
  | @reload p load v r r' ho hl hv h ih =>
    have ha' : a ∈ r := (List.mem_cons.mp ha).resolve_left fun hap => ho (by rw [← hap, hdest])
    obtain ⟨a', hm, hida⟩ := h.exists_id ha'
    have hida' : a'.id = d.op := hida.trans hop
    simp only [List.map_cons, Operation.map, List.nodup_cons, List.mem_cons, not_or] at hid
    have hload : load.id ≠ d.op := fun he =>
      hid.1.2 (List.mem_map.mpr ⟨a', hm, hida'.trans he.symm⟩)
    have hpid : p.id ≠ d.op := fun he =>
      hid.2.1 (List.mem_map.mpr ⟨a', hm, hida'.trans he.symm⟩)
    have hone' : (r.filterMap fun o => o.kind.dest?).Nodup :=
      hone.sublist ((List.sublist_cons_self p r).filterMap _)
    obtain ⟨i, hi, hspill⟩ := ih hone' hid.2.2 ha'
    refine ⟨i + 2, ?_, .reload ho hl hv hspill⟩
    simp [List.findIdx?_cons, Operation.map, hload, hpid, hi]
  | define hst => cases hst

end Spills

variable {f g g' : Function} {d : Definition} {w : Reg} {a k : BlockId} {c : Block → Block}
  {i : Instruction} {l' : List (Operation Instruction)} {p : Operation Phi} {tags : Tags} {ty : Ty}
  {u : Reg}

theorem reloadInstructions_of_unread {l : List (Operation Instruction)}
    (h : ∀ o ∈ l, o.kind.reads d.reg = false) (f : Function) :
    reloadInstructions d w l f = .ok (f, l) := by
  induction l with
  | nil => rfl
  | cons o l ih =>
    rw [reloadInstructions, h o (by simp), ih fun p hp => h p (List.mem_cons_of_mem _ hp)]
    rfl

theorem newLoad_eq_ok {v : Reg} {load : Operation Instruction}
    (hf : newLoad f w ty tags = .ok (g, v, load)) :
    load.told = (.load v (.reg w) ty, tags) ∧ v = ⟨f.nextReg⟩ ∧
      g.nextReg.toNat = f.nextReg.toNat + 1 ∧ f.Ticks g := by
  have hticks := (newLoad_ticks hf).1
  obtain ⟨⟨f₁, r⟩, h₁, hf⟩ := bind_eq_ok.mp hf
  obtain ⟨⟨f₂, load₁⟩, h₂, hf⟩ := bind_eq_ok.mp hf
  cases hf
  obtain ⟨rfl, next, hn, rfl⟩ := Function.freshTyped_eq_ok h₁
  obtain ⟨rfl, m, -, rfl⟩ := Function.op_eq_ok h₂
  exact ⟨rfl, rfl, hn, hticks⟩

theorem reads_iff {r : Reg} : i.reads r = true ↔ r ∈ i.uses := by
  simp [Instruction.reads]

theorem uses_load {o : Operation Instruction} {v : Reg}
    (h : o.told = (.load v (.reg w) d.ty, d.tags)) : o.kind.uses = [w] := by
  rw [(Operation.told_eq.mp h).1]
  rfl

theorem uses_alloca {o : Operation Instruction} (h : o.told = (.alloca w d.ty, d.tags)) :
    o.kind.uses = [] := by
  rw [(Operation.told_eq.mp h).1]
  rfl

theorem uses_of_isAlloca (h : i.isAlloca = true) : i.uses = [] := by
  cases i <;> first | rfl | cases h

theorem not_mem_uses_load {o : Operation Instruction} {v : Reg}
    (h : o.told = (.load v (.reg w) d.ty, d.tags)) (hd : d.reg.index.toNat < w.index.toNat) :
    d.reg ∉ o.kind.uses := by
  rw [uses_load h, List.mem_singleton]
  rintro hdw
  rw [hdw] at hd
  exact Nat.lt_irrefl _ hd

theorem not_mem_uses_replaceUse {v : Reg} (hv : v ≠ d.reg) :
    d.reg ∉ (i.replaceUse d.reg (.reg v)).uses := by
  intro h
  rcases mem_uses_replaceUse h with h | h
  · exact hv h.symm
  · exact h.2 rfl

theorem reads_eq_false {r : Reg} (h : r ∉ i.uses) : i.reads r = false :=
  Bool.eq_false_iff.mpr fun hr => h (reads_iff.mp hr)

theorem ne_of_lt {v : Reg} (h : u.index.toNat < v.index.toNat) : v ≠ u := by
  rintro rfl
  exact Nat.lt_irrefl _ h

theorem reloadInstructions_spills {tail : List Reg} {here : Bool}
    {r l : List (Operation Instruction)} (hd : d.reg.index.toNat < w.index.toNat)
    (h : Spills d w false tail here r l) (hr : ∀ o ∈ r, o.kind.dest? ≠ some d.reg)
    (hn : w.index.toNat < f.nextReg.toNat) (hf : reloadInstructions d w l f = .ok (g, l')) :
    Spills d w false tail here r l' ∧ f.Ticks g := by
  induction h generalizing f l' with
  | @done loads hloads htail =>
    have hunread : ∀ o ∈ loads, o.kind.reads d.reg = false := by
      intro o ho
      have hm : o.told ∈ loads.map Operation.told := List.mem_map_of_mem ho
      rw [hloads] at hm
      obtain ⟨v, -, hv⟩ := List.mem_map.mp hm
      exact reads_eq_false (not_mem_uses_load hv.symm hd)
    rw [reloadInstructions_of_unread hunread] at hf
    cases hf
    exact ⟨.done hloads htail, .refl _⟩
  | @keep here o r r' hh _ h ih =>
    have hr' : ∀ p ∈ r, p.kind.dest? ≠ some d.reg := fun p hp => hr p (List.mem_cons_of_mem _ hp)
    rw [reloadInstructions] at hf
    split at hf
    · next hread =>
      have hhere : here = false := by
        cases here
        · rfl
        · rw [reads_iff, uses_of_isAlloca (hh rfl)] at hread
          cases hread
      subst hhere
      obtain ⟨⟨f₁, v, load⟩, h₁, hf⟩ := bind_eq_ok.mp hf
      obtain ⟨⟨f₂, rest⟩, h₂, hf⟩ := bind_eq_ok.mp hf
      cases hf
      obtain ⟨hl, rfl, hnext, hticks⟩ := newLoad_eq_ok h₁
      obtain ⟨hs, hg⟩ := ih hr' (by omega) h₂
      exact ⟨.reload (hr o (by simp)) hl hn hs, hticks.trans hg⟩
    · obtain ⟨⟨f₂, rest⟩, h₂, hf⟩ := bind_eq_ok.mp hf
      cases hf
      obtain ⟨hs, hg⟩ := ih hr' hn h₂
      exact ⟨.keep hh (by simp) hs, hg⟩
  | @slot o r r' ho hhead h ih =>
    have hunread : o.kind.reads d.reg = false := reads_eq_false (by simp [uses_alloca ho])
    rw [reloadInstructions, if_neg (by simp [hunread])] at hf
    obtain ⟨⟨f₂, rest⟩, h₂, hf⟩ := bind_eq_ok.mp hf
    cases hf
    obtain ⟨hs, hg⟩ := ih hr hn h₂
    exact ⟨.slot ho hhead hs, hg⟩
  | @reload o load v r r' ho hl hv h ih =>
    have hr' : ∀ p ∈ r, p.kind.dest? ≠ some d.reg := fun p hp => hr p (List.mem_cons_of_mem _ hp)
    have hload : load.kind.reads d.reg = false := reads_eq_false (not_mem_uses_load hl hd)
    have hunread : (o.kind.replaceUse d.reg (.reg v)).reads d.reg = false :=
      reads_eq_false (not_mem_uses_replaceUse (ne_of_lt (Nat.lt_trans hd hv)))
    rw [reloadInstructions, if_neg (by simp [hload])] at hf
    obtain ⟨⟨f₁, rest₁⟩, h₁, hf⟩ := bind_eq_ok.mp hf
    cases hf
    rw [reloadInstructions, if_neg (by simp [Operation.map, hunread])] at h₁
    obtain ⟨⟨f₂, rest⟩, h₂, hf⟩ := bind_eq_ok.mp h₁
    cases hf
    obtain ⟨hs, hg⟩ := ih hr' hn h₂
    exact ⟨.reload ho hl hv hs, hg⟩
  | define hst => cases hst

theorem reloadInstructions_unread {l : List (Operation Instruction)}
    (hd : d.reg.index.toNat < w.index.toNat) (hn : w.index.toNat < f.nextReg.toNat)
    (hf : reloadInstructions d w l f = .ok (g, l')) : ∀ o ∈ l', d.reg ∉ o.kind.uses := by
  induction l generalizing f l' with
  | nil =>
    cases hf
    simp
  | cons o l ih =>
    rw [reloadInstructions] at hf
    split at hf
    · obtain ⟨⟨f₁, v, load⟩, h₁, hf⟩ := bind_eq_ok.mp hf
      obtain ⟨⟨f₂, rest⟩, h₂, hf⟩ := bind_eq_ok.mp hf
      cases hf
      obtain ⟨hl, rfl, hnext, -⟩ := newLoad_eq_ok h₁
      rw [List.forall_mem_cons, List.forall_mem_cons]
      exact ⟨not_mem_uses_load hl hd,
        not_mem_uses_replaceUse (ne_of_lt (Nat.lt_trans hd hn)), ih (by omega) h₂⟩
    · next hread =>
      obtain ⟨⟨f₂, rest⟩, h₂, hf⟩ := bind_eq_ok.mp hf
      cases hf
      rw [List.forall_mem_cons]
      exact ⟨fun hm => hread (reads_iff.mpr hm), ih hn h₂⟩

theorem reloadTerminator_eq_ok {t t' : Operation Terminator} {l : List (Operation Instruction)}
    (hf : reloadTerminator d w t f = .ok (g, l, t')) :
    f.Ticks g ∧ (l = [] ∧ t' = t ∧ d.reg ∉ t.kind.uses ∨
      ∃ load v, l = [load] ∧ load.told = (.load v (.reg w) d.ty, d.tags) ∧ v = ⟨f.nextReg⟩ ∧
        d.reg ∈ t.kind.uses ∧ t' = t.map fun t => t.replaceUse d.reg (.reg v)) := by
  rw [reloadTerminator] at hf
  split at hf
  · next hread =>
    obtain ⟨⟨f₁, v, load⟩, h₁, hf⟩ := bind_eq_ok.mp hf
    cases hf
    obtain ⟨hl, rfl, -, hticks⟩ := newLoad_eq_ok h₁
    exact ⟨hticks, .inr ⟨load, _, rfl, hl, rfl, by simpa using hread, rfl⟩⟩
  · next hread =>
    cases hf
    exact ⟨.refl f, .inl ⟨rfl, rfl, by simpa using hread⟩⟩

theorem forall₂_modify {α β : Type} {R : α → β → Prop} {as : List α} {bs : List β}
    (h : List.Forall₂ R as bs) {c : β → β} (hc : ∀ a b, R a b → R a (c b)) (i : Nat) :
    List.Forall₂ R as (bs.modify i c) := by
  induction h generalizing i with
  | nil => cases i <;> exact .nil
  | cons hab h ih =>
    cases i with
    | zero => exact .cons (hc _ _ hab) h
    | succ i => exact .cons hab (ih i)

/-- What each block loads at its end, after one more load in a block. -/
def addTail (tail : BlockId → List Reg) (pred : BlockId) (v : Reg) (l : BlockId) : List Reg :=
  if l = pred then tail l ++ [v] else tail l

variable {tail : BlockId → List Reg} {l pred key : BlockId} {b b' : Block} {v : Reg}
  {stored here : Bool} {entry : BlockId}

theorem mem_addTail (h : u ∈ tail l) : u ∈ addTail tail pred v l := by
  unfold addTail
  split
  · exact List.mem_append_left _ h
  · exact h

theorem mem_addTail_self : v ∈ addTail tail pred v pred := by
  simp [addTail]

theorem reloadedPhi_mono {tail' : BlockId → List Reg} {q q' : Phi}
    (h : ReloadedPhi d.reg tail q q') (ht : ∀ l, ∀ u ∈ tail l, u ∈ tail' l) :
    ReloadedPhi d.reg tail' q q' := by
  refine ⟨h.1, h.2.imp fun e e' he => ⟨he.1, he.2.imp_right ?_⟩⟩
  rintro ⟨hd, u, hu, heq⟩
  exact ⟨hd, u, ht _ u hu, heq⟩

namespace Changed

theorem phis_mono {tail' : BlockId → List Reg} (h : Changed d w entry stored tail l b b')
    (ht : ∀ l, ∀ u ∈ tail l, u ∈ tail' l) :
    List.Forall₂ (fun q q' => q'.id = q.id ∧ q'.tags = q.tags ∧ q'.kind.ty = q.kind.ty ∧
      ReloadedPhi d.reg tail' q.kind q'.kind) b.phis b'.phis :=
  h.phis.imp fun _ _ hq => ⟨hq.1, hq.2.1, hq.2.2.1, reloadedPhi_mono hq.2.2.2 ht⟩

theorem addTail (h : Changed d w entry stored tail l b b') (hl : l ≠ pred) :
    Changed d w entry stored (addTail tail pred v) l b b' := by
  have ht : Spill.addTail tail pred v l = tail l := if_neg hl
  refine ⟨h.id, h.phis_mono fun l u hu => mem_addTail hu, ?_, h.exitId, h.exitTags, ?_⟩
  · rw [ht]
    exact h.instructions
  · rw [ht]
    exact h.exit

theorem push (h : Changed d w entry stored tail l b b') {load : Operation Instruction}
    (hl : load.told = (.load v (.reg w) d.ty, d.tags)) (hv : w.index.toNat < v.index.toNat) :
    Changed d w entry stored (Spill.addTail tail l v) l b (b'.push load) := by
  have ht : Spill.addTail tail l v l = tail l ++ [v] := if_pos rfl
  refine ⟨h.id, h.phis_mono fun l u hu => mem_addTail hu, ?_, h.exitId, h.exitTags, ?_⟩
  · rw [ht]
    exact h.instructions.push hl hv
  · rcases h.exit with heq | ⟨u, hu, heq⟩
    · exact .inl heq
    · exact .inr ⟨u, mem_addTail hu, heq⟩

theorem replaceIncoming (h : Changed d w entry stored tail l b b') (hv : v ∈ tail pred) (i : Nat) :
    Changed d w entry stored tail l b (replaceIncoming b' i pred d.reg v) := by
  refine ⟨h.id, forall₂_modify h.phis ?_ i, h.instructions, h.exitId, h.exitTags, h.exit⟩
  rintro q q' ⟨hid, htags, hty, hdest, hinc⟩
  refine ⟨hid, htags, hty, hdest, ?_⟩
  refine List.forall₂_map_right_iff.mpr (hinc.imp fun e e' he => ?_)
  obtain ⟨hkey, hop⟩ := he
  split
  · next hp =>
    refine ⟨hkey, ?_⟩
    by_cases hod : e'.2 = .reg d.reg
    · have hed : e.2 = .reg d.reg := by
        rcases hop with hop | ⟨hop, -⟩
        · rw [← hop, hod]
        · exact hop
      refine .inr ⟨hed, v, ?_, by simp [Operand.replace, Operand.isReg, hod]⟩
      rw [← hkey, hp]
      exact hv
    · simpa [Operand.replace, Operand.isReg, hod] using hop
  · exact ⟨hkey, hop⟩

variable {is : List (Operation Instruction)}

theorem withInstructions (h : Changed d w entry stored tail l b b')
    (hs : Spills d w stored (tail l) (decide (l = entry)) b.instructions is) :
    Changed d w entry stored tail l b { b' with instructions := is } :=
  ⟨h.id, h.phis, hs, h.exitId, h.exitTags, h.exit⟩

theorem withStores (h : Changed d w entry false tail l b b')
    (hs : Spills d w true (tail l) (decide (l = entry)) b.instructions is) :
    Changed d w entry true tail l b { b' with instructions := is } :=
  ⟨h.id, h.phis, hs, h.exitId, h.exitTags, h.exit⟩

theorem strengthen (h : Changed d w entry false tail l b b')
    (hb : ∀ o ∈ b.instructions, o.kind.dest? ≠ some d.reg) : Changed d w entry true tail l b b' :=
  h.withStores (h.instructions.strengthen hb)

theorem withExit (h : Changed d w entry stored tail l b b') (hd : d.reg.index.toNat < w.index.toNat)
    (htail : ∀ u ∈ tail l, w.index.toNat < u.index.toNat)
    (hread : d.reg ∈ b'.terminator.kind.uses) (hv : v ∈ tail l) :
    Changed d w entry stored tail l b
      { b' with terminator := b'.terminator.map fun t => t.replaceUse d.reg (.reg v) } := by
  refine ⟨h.id, h.phis, h.instructions, h.exitId, h.exitTags, .inr ⟨v, hv, ?_⟩⟩
  rcases h.exit with heq | ⟨u, hu, heq⟩
  · simp only [Operation.map, heq]
  · rw [heq] at hread
    rcases mem_uses_terminator_replaceUse hread with hdu | hdu
    · exact absurd hdu.symm (ne_of_lt (Nat.lt_trans hd (htail u hu)))
    · exact absurd rfl hdu.2

end Changed

theorem Spills.tail_lt {tail : List Reg} {r r' : List (Operation Instruction)}
    (h : Spills d w stored tail here r r') : ∀ v ∈ tail, w.index.toNat < v.index.toNat := by
  induction h with
  | done _ hv => exact hv
  | keep _ _ _ ih | slot _ _ _ ih | reload _ _ _ _ ih | define _ _ _ _ ih => exact ih

/-- A function before and while a value is moved to a cell: some of its reads are loads. -/
structure Reloading (f : Function) (d : Definition) (w : Reg) (tail : BlockId → List Reg)
    (g : Function) : Prop where
  header : g.header = f.header
  trap : g.trap = f.trap
  block : ∀ l, Option.Rel (Changed d w f.graph.entry false tail l) (f.graph.block? l)
    (g.graph.block? l)
  bound : w.index.toNat < g.nextReg.toNat

theorem rel_some {α β : Type} {R : α → β → Prop} {x : Option α} {y : Option β} {a : α}
    (h : Option.Rel R x y) (hx : x = some a) : ∃ a', y = some a' ∧ R a a' := by
  subst hx
  cases h with
  | some h => exact ⟨_, rfl, h⟩

theorem rel_some_right {α β : Type} {R : α → β → Prop} {x : Option α} {y : Option β} {a' : β}
    (h : Option.Rel R x y) (hy : y = some a') : ∃ a, x = some a ∧ R a a' := by
  subst hy
  cases h with
  | some h => exact ⟨_, rfl, h⟩

theorem rel_map {α β : Type} {R S : α → β → Prop} {x : Option α} {y : Option β} {c : β → β}
    (h : Option.Rel R x y) (hc : ∀ a a', x = some a → y = some a' → R a a' → S a (c a')) :
    Option.Rel S x (y.map c) := by
  cases h with
  | some h => exact .some (hc _ _ rfl rfl h)
  | none => exact .none

theorem rel_imp {α β : Type} {R S : α → β → Prop} {x : Option α} {y : Option β}
    (h : Option.Rel R x y) (hc : ∀ a a', x = some a → y = some a' → R a a' → S a a') :
    Option.Rel S x y := by
  cases h with
  | some h => exact .some (hc _ _ rfl rfl h)
  | none => exact .none

namespace Reloading

theorem ticks (h : Reloading f d w tail g) (ht : g.Ticks g') : Reloading f d w tail g' :=
  ⟨ht.header.trans h.header, ht.trap.trans h.trap, fun l => by rw [ht.block?]; exact h.block l,
    Nat.lt_of_lt_of_le h.bound (UInt32.le_iff_toNat_le.mp ht.counter)⟩

variable {c : Block → Block}

theorem modify (h : Reloading f d w tail g)
    (hc : ∀ b b', f.graph.block? key = some b → g.graph.block? key = some b' →
      Changed d w f.graph.entry false tail key b b' →
      Changed d w f.graph.entry false tail key b (c b')) :
    Reloading f d w tail (g.modifyBlock key c) := by
  refine ⟨h.header, h.trap, fun l => ?_, h.bound⟩
  rw [Function.block?_modifyBlock]
  split
  · next hl =>
    subst hl
    exact rel_map (h.block l) hc
  · exact h.block l

theorem extend (h : Reloading f d w tail g)
    (hc : ∀ b b', f.graph.block? key = some b → g.graph.block? key = some b' →
      Changed d w f.graph.entry false tail key b b' →
      Changed d w f.graph.entry false (addTail tail key v) key b (c b')) :
    Reloading f d w (addTail tail key v) (g.modifyBlock key c) := by
  refine ⟨h.header, h.trap, fun l => ?_, h.bound⟩
  rw [Function.block?_modifyBlock]
  split
  · next hl =>
    subst hl
    exact rel_map (h.block l) hc
  · next hl => exact rel_imp (h.block l) fun _ _ _ _ hb => hb.addTail hl

end Reloading

/-- Nothing in a block reads a register, phis apart. -/
def Clear (r : Reg) (b : Block) : Prop :=
  (∀ o ∈ b.instructions, r ∉ o.kind.uses) ∧ r ∉ b.terminator.kind.uses

/-- A phi of a block reads a register at the end of block `a`. -/
def Expects (r : Reg) (a : BlockId) (b : Block) : Prop :=
  ∃ p ∈ b.phis, (a, .reg r) ∈ p.kind.incoming

/-- A block reads the value only if it defines it, and its phis only at the end of blocks that are
missing. -/
def Cleared (d : Definition) (g : Function) (key : BlockId) : Prop :=
  ∀ b, g.graph.block? key = some b →
    (key ≠ d.block → Clear d.reg b) ∧ ∀ a, Expects d.reg a b → g.graph.block? a = none

/-- The phis of a block that read the value are listed, but for reads at the end of missing
blocks. -/
def Pending (d : Definition) (g : Function) (key : BlockId) (uses : List (Nat × BlockId)) : Prop :=
  ∀ b, g.graph.block? key = some b → ∀ i p, b.phis[i]? = some p → ∀ a,
    (a, .reg d.reg) ∈ p.kind.incoming → (i, a) ∈ uses ∨ g.graph.block? a = none

theorem block?_modifyBlock_eq_none :
    (f.modifyBlock k c).graph.block? a = none ↔ f.graph.block? a = none := by
  rw [Function.block?_modifyBlock]
  split <;> simp

theorem mem_phiUses {r : Reg} {i : Nat} :
    (i, a) ∈ phiUses b r ↔ ∃ p, b.phis[i]? = some p ∧ (a, .reg r) ∈ p.kind.incoming := by
  simp only [phiUses, List.mem_flatten, List.mem_mapIdx]
  constructor
  · rintro ⟨_, ⟨j, hj, rfl⟩, hm⟩
    obtain ⟨e, he, heq⟩ := List.mem_map.mp hm
    obtain ⟨he, hr⟩ := List.mem_filter.mp he
    cases heq
    refine ⟨_, List.getElem?_eq_getElem hj, ?_⟩
    have : e.2 = .reg r := by simpa [Operand.isReg] using hr
    rwa [← this]
  · rintro ⟨p, hp, hm⟩
    obtain ⟨hi, rfl⟩ := List.getElem?_eq_some_iff.mp hp
    refine ⟨_, ⟨i, hi, rfl⟩, List.mem_map.mpr ⟨(a, .reg r), ?_, rfl⟩⟩
    exact List.mem_filter.mpr ⟨hm, by simp [Operand.isReg]⟩

theorem Clear.push {r : Reg} (h : Clear r b) {load : Operation Instruction}
    (hl : r ∉ load.kind.uses) : Clear r (b.push load) := by
  refine ⟨fun o ho => ?_, h.2⟩
  rcases List.mem_append.mp ho with ho | ho
  · exact h.1 o ho
  · rwa [List.mem_singleton.mp ho]

theorem mem_replaceIncoming {r : Reg} {i j : Nat} (hv : v ≠ r)
    (hp : (replaceIncoming b i pred r v).phis[j]? = some p) (ha : (a, .reg r) ∈ p.kind.incoming) :
    ∃ q, b.phis[j]? = some q ∧ (a, .reg r) ∈ q.kind.incoming ∧ (i = j → a ≠ pred) := by
  simp only [replaceIncoming, List.getElem?_modify] at hp
  split at hp
  · obtain ⟨q, hq, rfl⟩ := Option.map_eq_some_iff.mp hp
    refine ⟨q, hq, ?_⟩
    obtain ⟨e, he, heq⟩ := List.mem_map.mp ha
    split at heq
    · next hep =>
      by_cases hr : e.2 = .reg r
      · simp only [Operand.replace, Operand.isReg, hr, decide_true, ↓reduceIte, Prod.mk.injEq,
          Operand.reg.injEq] at heq
        exact absurd heq.2 hv
      · simp only [Operand.replace, Operand.isReg, hr, decide_false, Bool.false_eq_true,
          ↓reduceIte, Prod.mk.injEq] at heq
        exact heq.2.elim
    · next hep =>
      subst heq
      exact ⟨he, fun _ hap => hep hap⟩
  · next hij =>
    refine ⟨p, by simpa using hp, ha, fun h => absurd h hij⟩

theorem Expects.of_replaceIncoming {r : Reg} {i : Nat} (hv : v ≠ r)
    (h : Expects r a (replaceIncoming b i pred r v)) : Expects r a b := by
  obtain ⟨p, hp, ha⟩ := h
  obtain ⟨j, hj⟩ := List.getElem?_of_mem hp
  obtain ⟨q, hq, hqa, -⟩ := mem_replaceIncoming hv hj ha
  exact ⟨q, List.mem_of_getElem? hq, hqa⟩

theorem Cleared.of_none (h : g.graph.block? key = none) : Cleared d g key := by
  intro b hb
  rw [h] at hb
  cases hb

theorem Cleared.ticks (h : Cleared d g key) (ht : g.Ticks g') : Cleared d g' key := by
  intro b hb
  rw [ht.block?] at hb
  refine ⟨(h b hb).1, fun a ha => ?_⟩
  rw [ht.block?]
  exact (h b hb).2 a ha

theorem Cleared.modify (h : Cleared d g key)
    (hclear : ∀ b, g.graph.block? key = some b → k = key → key ≠ d.block → Clear d.reg b →
      Clear d.reg (c b)) (hexp : ∀ b a, Expects d.reg a (c b) → Expects d.reg a b) :
    Cleared d (g.modifyBlock k c) key := by
  intro b hb
  rw [Function.block?_modifyBlock] at hb
  split at hb
  · next hk =>
    obtain ⟨b₀, hb₀, rfl⟩ := Option.map_eq_some_iff.mp hb
    refine ⟨fun hne => hclear b₀ hb₀ hk.symm hne ((h b₀ hb₀).1 hne), fun a ha => ?_⟩
    exact block?_modifyBlock_eq_none.mpr ((h b₀ hb₀).2 a (hexp b₀ a ha))
  · exact ⟨(h b hb).1, fun a ha => block?_modifyBlock_eq_none.mpr ((h b hb).2 a ha)⟩

theorem Reloading.reloadPhis {uses : List (Nat × BlockId)} (h : Reloading f d w tail g)
    (hd : d.reg.index.toNat < w.index.toNat) (hp : Pending d g key uses)
    (hf : reloadPhis d w key uses g = .ok g') :
    ∃ tail', Reloading f d w tail' g' ∧ Pending d g' key [] ∧
      ∀ k, Cleared d g k → Cleared d g' k := by
  induction uses generalizing g tail with
  | nil =>
    cases hf
    exact ⟨tail, h, hp, fun _ hk => hk⟩
  | cons e uses ih =>
    obtain ⟨index, pred⟩ := e
    unfold Spill.reloadPhis at hf
    split at hf
    · obtain ⟨⟨g₁, v, load⟩, h₁, hf⟩ := bind_eq_ok.mp hf
      obtain ⟨hl, hv, hnext, hticks⟩ := newLoad_eq_ok h₁
      have hwv : w.index.toNat < v.index.toNat := by
        rw [hv]
        exact h.bound
      have hvd : v ≠ d.reg := ne_of_lt (Nat.lt_trans hd hwv)
      have h₂ : Reloading f d w (addTail tail pred v) (g₁.modifyBlock pred fun p => p.push load) :=
        (h.ticks hticks).extend fun b b' _ _ hb => hb.push hl hwv
      have h₃ : Reloading f d w (addTail tail pred v)
          ((g₁.modifyBlock pred fun p => p.push load).modifyBlock key
            fun b => replaceIncoming b index pred d.reg v) :=
        h₂.modify fun b b' _ _ hb => hb.replaceIncoming mem_addTail_self index
      have hp₃ : Pending d ((g₁.modifyBlock pred fun p => p.push load).modifyBlock key
          fun b => replaceIncoming b index pred d.reg v) key uses := by
        intro b hb i p hi a ha
        simp only [block?_modifyBlock_eq_none, hticks.block?]
        rw [Function.block?_modifyBlock, if_pos rfl, Function.block?_modifyBlock] at hb
        obtain ⟨b₁, hb₁, rfl⟩ := Option.map_eq_some_iff.mp hb
        obtain ⟨q, hq, hqa, hne⟩ := mem_replaceIncoming hvd hi ha
        have hq₀ : ∃ b₀, g.graph.block? key = some b₀ ∧ b₀.phis[i]? = some q := by
          rw [hticks.block?] at hb₁
          split at hb₁
          · obtain ⟨b₀, hb₀, rfl⟩ := Option.map_eq_some_iff.mp hb₁
            exact ⟨b₀, hb₀, hq⟩
          · exact ⟨b₁, hb₁, hq⟩
        obtain ⟨b₀, hb₀, hq₀⟩ := hq₀
        rcases hp b₀ hb₀ i q hq₀ a hqa with hm | hm
        · rcases List.mem_cons.mp hm with heq | hm
          · cases heq
            exact absurd rfl (hne rfl)
          · exact .inl hm
        · exact .inr hm
      obtain ⟨tail', h', hp', hc'⟩ := ih h₃ hp₃ hf
      refine ⟨tail', h', hp', fun k hk => hc' k ?_⟩
      refine ((hk.ticks hticks).modify (fun b _ _ _ hb => hb.push (not_mem_uses_load hl hd))
        fun b a hb => hb).modify (fun b _ _ _ hb => hb) fun b a hb => hb.of_replaceIncoming hvd
    · next hnone =>
      refine ih h ?_ hf
      intro b hb i p hi a ha
      rcases hp b hb i p hi a ha with hm | hm
      · rcases List.mem_cons.mp hm with heq | hm
        · cases heq
          refine .inr ?_
          rw [Table.contains_iff, not_exists] at hnone
          exact Option.eq_none_iff_forall_not_mem.mpr fun b hb => hnone b hb
        · exact .inl hm
      · exact .inr hm

theorem Reloading.reloadBlock (h : Reloading f d w tail g) (hd : d.reg.index.toNat < w.index.toNat)
    (hhome : ∀ l b, l ≠ d.block → f.graph.block? l = some b → d.reg ∉ b.defs)
    (hf : reloadBlock d w key g = .ok g') :
    ∃ tail', Reloading f d w tail' g' ∧ Cleared d g' key ∧ ∀ k, Cleared d g k → Cleared d g' k := by
  unfold Spill.reloadBlock at hf
  split at hf
  · next hnone =>
    cases hf
    exact ⟨tail, h, .of_none hnone, fun _ hk => hk⟩
  · next b₀ hb₀ =>
    obtain ⟨g₁, h₁, hf⟩ := bind_eq_ok.mp hf
    have hp₀ : Pending d g key (phiUses b₀ d.reg) := by
      intro b hb i p hi a ha
      rw [hb₀] at hb
      cases hb
      exact .inl (mem_phiUses.mpr ⟨p, hi, ha⟩)
    obtain ⟨tail₁, hr₁, hp₁, hc₁⟩ := h.reloadPhis hd hp₀ h₁
    have hexp : ∀ b, g₁.graph.block? key = some b → ∀ a, Expects d.reg a b →
        g₁.graph.block? a = none := by
      rintro b hb a ⟨p, hp, ha⟩
      obtain ⟨i, hi⟩ := List.getElem?_of_mem hp
      exact (hp₁ b hb i p hi a ha).resolve_left (by simp)
    split at hf
    · next hkey =>
      cases hf
      exact ⟨tail₁, hr₁, fun b hb => ⟨fun hne => absurd hkey hne, hexp b hb⟩, hc₁⟩
    · next hkey =>
      split at hf
      · next hnone =>
        cases hf
        exact ⟨tail₁, hr₁, .of_none hnone, hc₁⟩
      · next b₁ hb₁ =>
        obtain ⟨⟨g₂, insts⟩, h₂, hf⟩ := bind_eq_ok.mp hf
        obtain ⟨⟨g₃, load, term⟩, h₃, hf⟩ := bind_eq_ok.mp hf
        cases hf
        obtain ⟨b, hb, hbb₁⟩ := rel_some_right (hr₁.block key) hb₁
        have hdest : ∀ o ∈ b.instructions, o.kind.dest? ≠ some d.reg := fun o ho hod =>
          hhome key b hkey hb (List.mem_append_right _ (List.mem_filterMap.mpr ⟨o, ho, hod⟩))
        obtain ⟨hs, ht₂⟩ :=
          reloadInstructions_spills hd hbb₁.instructions hdest hr₁.bound h₂
        have hunread := reloadInstructions_unread hd hr₁.bound h₂
        obtain ⟨ht₃, hterm⟩ := reloadTerminator_eq_ok h₃
        have ht := ht₂.trans ht₃
        have hr₃ := hr₁.ticks ht
        have hb₃ : g₃.graph.block? key = some b₁ := by rw [ht.block?, hb₁]
        have hclear : ∀ o ∈ load, d.reg ∉ o.kind.uses := by
          rcases hterm with ⟨rfl, -⟩ | ⟨ld, v, rfl, hl, -⟩
          · simp
          · simpa using not_mem_uses_load hl hd
        have hexit : d.reg ∉ term.kind.uses := by
          rcases hterm with ⟨-, rfl, hu⟩ | ⟨ld, v, -, -, hv, -, rfl⟩
          · exact hu
          · intro hu
            rcases mem_uses_terminator_replaceUse hu with hu | hu
            · refine ne_of_lt (u := d.reg) (v := v) ?_ hu.symm
              rw [hv]
              exact Nat.lt_trans hd (hr₁.ticks ht₂).bound
            · exact hu.2 rfl
        have hset : Clear d.reg { b₁ with instructions := insts ++ load, terminator := term } := by
          refine ⟨fun o ho => ?_, hexit⟩
          rcases List.mem_append.mp ho with ho | ho
          · exact hunread o ho
          · exact hclear o ho
        have hsettled : ∀ k, Cleared d g k → Cleared d (g₃.modifyBlock key fun b =>
            { b with instructions := insts ++ load, terminator := term }) k := by
          intro k hk
          refine ((hc₁ k hk).ticks ht).modify (fun b' hb' hkk _ _ => ?_) fun b a hb => hb
          rw [← hkk, hb₃] at hb'
          cases hb'
          exact hset
        have hdone : Cleared d (g₃.modifyBlock key fun b =>
            { b with instructions := insts ++ load, terminator := term }) key := by
          intro b' hb'
          rw [Function.block?_modifyBlock, if_pos rfl, hb₃] at hb'
          cases hb'
          refine ⟨fun _ => hset, fun a ha => block?_modifyBlock_eq_none.mpr ?_⟩
          rw [ht.block?]
          exact hexp b₁ hb₁ a ha
        rcases hterm with ⟨rfl, rfl, -⟩ | ⟨ld, v, rfl, hl, hv, hread, rfl⟩
        · refine ⟨tail₁, hr₃.modify fun c c' hc hc' hcc => ?_, hdone, hsettled⟩
          rw [hb₃] at hc'
          cases hc'
          rw [hb] at hc
          cases hc
          simpa using hcc.withInstructions hs
        · refine ⟨addTail tail₁ key v, hr₃.extend fun c c' hc hc' hcc => ?_, hdone, hsettled⟩
          rw [hb₃] at hc'
          cases hc'
          rw [hb] at hc
          cases hc
          have hwv : w.index.toNat < v.index.toNat := by
            rw [hv]
            exact (hr₁.ticks ht₂).bound
          have hpush := (hcc.withInstructions hs).push hl hwv
          exact hpush.withExit hd hpush.instructions.tail_lt hread mem_addTail_self

theorem Reloading.reloadBlocks {keys : List BlockId} (h : Reloading f d w tail g)
    (hd : d.reg.index.toNat < w.index.toNat)
    (hhome : ∀ l b, l ≠ d.block → f.graph.block? l = some b → d.reg ∉ b.defs)
    (hf : reloadBlocks d w keys g = .ok g') :
    ∃ tail', Reloading f d w tail' g' ∧ (∀ k ∈ keys, Cleared d g' k) ∧
      ∀ k, Cleared d g k → Cleared d g' k := by
  induction keys generalizing g tail with
  | nil =>
    cases hf
    exact ⟨tail, h, by simp, fun _ hk => hk⟩
  | cons key keys ih =>
    obtain ⟨g₁, h₁, hf⟩ := bind_eq_ok.mp hf
    obtain ⟨tail₁, hr₁, hk₁, hc₁⟩ := h.reloadBlock hd hhome h₁
    obtain ⟨tail', h', hk', hc'⟩ := ih hr₁ hf
    refine ⟨tail', h', ?_, fun k hk => hc' k (hc₁ k hk)⟩
    rw [List.forall_mem_cons]
    exact ⟨hc' key hk₁, hk'⟩

def Definition.In (d : Definition) (f : Function) : Prop :=
  ∃ b, f.graph.block? d.block = some b ∧
    if d.isPhi then ∃ p ∈ b.phis, p.id = d.op ∧ p.kind.dest = d.reg
    else ∃ o ∈ b.instructions, o.id = d.op ∧ o.kind.dest? = some d.reg ∧ o.kind.isAlloca = false

/-- A block before and after a value was moved to a cell. Where the value is defined by a phi it is
stored first of all. -/
def Relocated (d : Definition) (w : Reg) (entry : BlockId) (tail : BlockId → List Reg) (l : BlockId)
    (b b' : Block) : Prop :=
  ∃ s, Changed d w entry true tail l b s ∧
    if d.reg ∈ b.phis.map fun p => p.kind.dest then
      ∃ store, store.told = (.store (.reg w) (.reg d.reg), d.tags) ∧ b' = s.insertAt 0 store
    else b' = s

/-- A function before and after a value was moved to cell `w`. -/
structure Moved (f : Function) (d : Definition) (w : Reg) (tail : BlockId → List Reg)
    (g : Function) : Prop where
  header : g.header = f.header
  trap : g.trap = f.trap
  cell : w = ⟨f.nextReg⟩
  bound : w.index.toNat < g.nextReg.toNat
  block : ∀ l, Option.Rel (Relocated d w f.graph.entry tail l) (f.graph.block? l) (g.graph.block? l)
  cleared : ∀ l, Cleared d g l

theorem Spills.insertSlot_allocaCount {o : Operation Instruction}
    (ho : o.told = (.alloca w d.ty, d.tags)) (b : Block) :
    Spills d w false [] true b.instructions (b.insertAt b.allocaCount o).instructions := by
  rw [Block.insertAt, b.take_allocaCount, b.drop_allocaCount]
  exact .insertSlot ho _

theorem Changed.start (b : Block) {is : List (Operation Instruction)}
    (hs : Spills d w false [] (decide (l = entry)) b.instructions is) :
    Changed d w entry false (fun _ => []) l b { b with instructions := is } := by
  refine ⟨rfl, ?_, hs, rfl, rfl, .inl rfl⟩
  exact List.forall₂_same.mpr fun q _ =>
    ⟨rfl, rfl, rfl, rfl, List.forall₂_same.mpr fun e _ => ⟨rfl, .inl rfl⟩⟩

theorem createSlot_eq_ok (hf : createSlot f ty tags = .ok (g, w)) :
    ∃ f₁ o, f.Ticks f₁ ∧ o.told = (.alloca w ty, tags) ∧ w = ⟨f.nextReg⟩ ∧
      f₁.nextReg.toNat = f.nextReg.toNat + 1 ∧
      g = f₁.modifyBlock f.graph.entry fun b => b.insertAt b.allocaCount o := by
  obtain ⟨⟨f₁, r⟩, h₁, hf⟩ := bind_eq_ok.mp hf
  obtain ⟨⟨f₂, o⟩, h₂, hf⟩ := bind_eq_ok.mp hf
  cases hf
  have ht := (Function.ticks_freshTyped h₁).trans (Function.ticks_op h₂).1
  obtain ⟨rfl, next, hn, rfl⟩ := Function.freshTyped_eq_ok h₁
  obtain ⟨rfl, m, -, rfl⟩ := Function.op_eq_ok h₂
  exact ⟨_, _, ht, rfl, rfl, hn, rfl⟩

theorem Reloading.createSlot (hf : createSlot f d.ty d.tags = .ok (g, w)) :
    Reloading f d w (fun _ => []) g ∧ w = ⟨f.nextReg⟩ := by
  obtain ⟨f₁, o, ht, ho, rfl, hn, rfl⟩ := createSlot_eq_ok hf
  refine ⟨⟨ht.header, ht.trap, fun l => ?_, ?_⟩, rfl⟩
  · rw [Function.block?_modifyBlock, ht.block?]
    cases hb : f.graph.block? l with
    | none => split <;> exact .none
    | some b =>
      split
      · next hl => exact .some (.start b (by simpa [hl] using .insertSlot_allocaCount ho b))
      · next hl => exact .some (.start b (by simpa [hl] using .refl _))
  · change f.nextReg.toNat < f₁.nextReg.toNat
    omega

theorem defs_sublist_of_block (hb : f.graph.block? k = some b) : b.defs.Sublist f.defs := by
  have hm : b ∈ f.graph.blockList := Table.mem_values_iff.mpr ⟨k, hb⟩
  obtain ⟨pre, post, hsplit⟩ := List.append_of_mem hm
  refine List.Sublist.trans ?_ (List.sublist_append_right _ _)
  rw [hsplit, List.flatMap_append, List.flatMap_cons]
  exact (List.sublist_append_left _ _).trans (List.sublist_append_right _ _)

theorem opIds_sublist_of_block (hb : f.graph.block? k = some b) : b.opIds.Sublist f.opIds := by
  have hm : b ∈ f.graph.blockList := Table.mem_values_iff.mpr ⟨k, hb⟩
  obtain ⟨pre, post, hsplit⟩ := List.append_of_mem hm
  rw [Function.opIds, hsplit, List.flatMap_append, List.flatMap_cons]
  exact (List.sublist_append_left _ _).trans (List.sublist_append_right _ _)

theorem Definition.In.mem_defs (hd : d.In f) :
    ∃ b, f.graph.block? d.block = some b ∧ d.reg ∈ b.defs := by
  obtain ⟨b, hb, hdef⟩ := hd
  refine ⟨b, hb, ?_⟩
  split at hdef
  · obtain ⟨p, hp, -, hdest⟩ := hdef
    exact List.mem_append_left _ (List.mem_map.mpr ⟨p, hp, hdest⟩)
  · obtain ⟨o, ho, -, hdest, -⟩ := hdef
    exact List.mem_append_right _ (List.mem_filterMap.mpr ⟨o, ho, hdest⟩)

theorem key_of_mem_defs (hn : f.Numbered) {k' : BlockId} {r : Reg} (hb : f.graph.block? k = some b)
    (hb' : f.graph.block? k' = some b') (hr : r ∈ b.defs) (hr' : r ∈ b'.defs) : k = k' := by
  rw [← hn.blockKey k b hb, ← hn.blockKey k' b' hb', hn.def_block_unique hb hb' hr hr']

theorem Definition.In.not_mem_defs (hd : d.In f) (hn : f.Numbered) (hl : l ≠ d.block)
    (hb : f.graph.block? l = some b) : d.reg ∉ b.defs := by
  intro hm
  obtain ⟨s, hs, hms⟩ := hd.mem_defs
  exact hl (key_of_mem_defs hn hb hs hm hms)

theorem Definition.In.lt_nextReg (hd : d.In f) (hn : f.Numbered) :
    d.reg.index.toNat < f.nextReg.toNat := by
  obtain ⟨s, hs, hms⟩ := hd.mem_defs
  exact UInt32.lt_iff_toNat_lt.mp (hn.defBound _ ((defs_sublist_of_block hs).subset hms))

theorem Cleared.insertAt (h : Cleared d g key) (hk : k = d.block) {o : Operation Instruction}
    (hc : ∀ b, c b = b ∨ ∃ i, c b = b.insertAt i o) : Cleared d (g.modifyBlock k c) key := by
  refine h.modify (fun b _ hkk hne => absurd (hkk ▸ hk) hne) fun b a hb => ?_
  rcases hc b with hcb | ⟨i, hcb⟩
  · rwa [hcb] at hb
  · rw [hcb] at hb
    exact hb

theorem demoteValue_moved (hd : d.In f) (hn : f.Numbered) (hf : demoteValue f d = .ok g) :
    ∃ w tail, Moved f d w tail g := by
  obtain ⟨⟨f₁, w⟩, h₁, hf⟩ := bind_eq_ok.mp hf
  obtain ⟨f₂, h₂, hf⟩ := bind_eq_ok.mp hf
  obtain ⟨⟨f₃, store⟩, h₃, hf⟩ := bind_eq_ok.mp hf
  cases hf
  obtain ⟨hr₁, hw⟩ := Reloading.createSlot h₁
  have hdw : d.reg.index.toNat < w.index.toNat := by
    rw [hw]
    exact hd.lt_nextReg hn
  obtain ⟨tail, hr₂, hkeys, -⟩ :=
    hr₁.reloadBlocks hdw (fun l b hl hb => hd.not_mem_defs hn hl hb) h₂
  obtain ⟨ht, hkind, htags⟩ := Function.ticks_op h₃
  have hstore : store.told = (.store (.reg w) (.reg d.reg), d.tags) :=
    Operation.told_eq.mpr ⟨hkind, htags⟩
  have hspare := reloadBlocks_spare (createSlot_spare (Function.numbered_iff.mp hn) h₁) h₂
  have hcleared : ∀ k, Cleared d f₂ k := by
    intro k
    cases hk : f₂.graph.block? k with
    | none => exact .of_none hk
    | some b₂ =>
      obtain ⟨b, hb, -⟩ := rel_some_right (hr₂.block k) hk
      obtain ⟨b₁, hb₁, -⟩ := rel_some (hr₁.block k) hb
      exact hkeys k (Table.mem_keys_iff.mpr ⟨b₁, hb₁⟩)
  refine ⟨w, tail, ⟨ht.header.trans hr₂.header, ht.trap.trans hr₂.trap, hw,
    (hr₂.ticks ht).bound, fun l => ?_, fun l => ?_⟩⟩
  · rw [Function.block?_modifyBlock, ht.block?]
    split
    · next hl =>
      subst hl
      refine rel_map (hr₂.block d.block) fun b b₂ hb hb₂ hc => ?_
      obtain ⟨s, hs, hdef⟩ := hd
      rw [hb] at hs
      cases hs
      have hone : b.defs.Nodup := hn.defOnce.sublist (defs_sublist_of_block hb)
      obtain ⟨-, hinsts, hapart⟩ := List.nodup_append.mp hone
      cases hphi : d.isPhi with
      | true =>
        simp only [hphi, ↓reduceIte] at hdef
        obtain ⟨p, hp, -, hdest⟩ := hdef
        have hm : d.reg ∈ b.phis.map fun p => p.kind.dest := List.mem_map.mpr ⟨p, hp, hdest⟩
        have hnone : ∀ o ∈ b.instructions, o.kind.dest? ≠ some d.reg := fun o ho hod =>
          hapart _ hm _ (List.mem_filterMap.mpr ⟨o, ho, hod⟩) rfl
        refine ⟨b₂, hc.strengthen hnone, ?_⟩
        rw [if_pos hm]
        exact ⟨store, hstore, by simp [insertStore, hphi]⟩
      | false =>
        simp only [hphi, Bool.false_eq_true, ↓reduceIte] at hdef
        have hm : d.reg ∉ b.phis.map fun p => p.kind.dest := by
          obtain ⟨o, ho, -, hod, -⟩ := hdef
          exact fun hm => hapart _ hm _ (List.mem_filterMap.mpr ⟨o, ho, hod⟩) rfl
        have hids : (b₂.instructions.map Operation.id).Nodup := by
          have hop := (hspare.numbered trivial trivial).1.opOnce.sublist (opIds_sublist_of_block hb₂)
          rw [Block.opIds_eq] at hop
          exact hop.sublist ((List.sublist_append_right _ _).trans (List.sublist_append_left _ _))
        obtain ⟨i, hi, hspill⟩ := hc.instructions.insertStore hstore hdef hinsts hids
        refine ⟨_, hc.withStores hspill, ?_⟩
        rw [if_neg hm]
        simp [insertStore, hphi, hi, Block.insertAt]
    · next hl =>
      refine rel_imp (hr₂.block l) fun b b₂ hb _ hc => ?_
      have hm := hd.not_mem_defs hn hl hb
      refine ⟨b₂, hc.strengthen fun o ho hod => hm (List.mem_append_right _
        (List.mem_filterMap.mpr ⟨o, ho, hod⟩)), ?_⟩
      rw [if_neg fun h => hm (List.mem_append_left _ h)]
  · exact ((hcleared l).ticks ht).insertAt rfl fun b => insertStore_cases d store b

/-- What is stored at the end of a block for a phi. -/
def lastStore (w : Reg) (tags : Tags) (incoming : List (BlockId × Operand)) (l : BlockId) :
    List (Instruction × Tags) :=
  match incoming.lookup l with
  | none => []
  | some v => [(.store (.reg w) v, tags)]

theorem storeIncoming_eq_ok {incoming : List (BlockId × Operand)} {seen : List BlockId}
    (hf : storeIncoming w tags incoming seen f = .ok g) :
    g.header = f.header ∧ g.trap = f.trap ∧ f.nextReg ≤ g.nextReg ∧
    ∃ stores : BlockId → List (Operation Instruction),
      (∀ l, (stores l).map Operation.told =
        if seen.contains l then [] else lastStore w tags incoming l) ∧
      ∀ l, g.graph.block? l =
        (f.graph.block? l).map fun b => { b with instructions := b.instructions ++ stores l } := by
  induction incoming generalizing f seen with
  | nil =>
    cases hf
    exact ⟨rfl, rfl, UInt32.le_refl _, fun _ => [], by simp [lastStore], by simp⟩
  | cons e incoming ih =>
    obtain ⟨pred, v⟩ := e
    unfold storeIncoming at hf
    split at hf
    · next hseen =>
      obtain ⟨hh, ht, hn, stores, hs, hb⟩ := ih hf
      refine ⟨hh, ht, hn, stores, fun l => ?_, hb⟩
      rw [hs l]
      by_cases hl : l = pred
      · have hmem : l ∈ seen := by simpa [hl] using hseen
        simp [hmem]
      · simp [lastStore, List.lookup_cons, beq_false_of_ne hl]
    · next hseen =>
      obtain ⟨⟨f₁, store⟩, h₁, hf⟩ := bind_eq_ok.mp hf
      obtain ⟨hticks, hkind, htags⟩ := Function.ticks_op h₁
      obtain ⟨hh, ht, hn, stores, hs, hb⟩ := ih hf
      refine ⟨hh.trans hticks.header, ht.trans hticks.trap, UInt32.le_trans hticks.counter hn,
        fun l => if l = pred then store :: stores l else stores l, fun l => ?_, fun l => ?_⟩
      · by_cases hl : l = pred
        · subst hl
          have hmem : ¬ l ∈ seen := by simpa using hseen
          simp [hs, hmem, lastStore, Operation.told, hkind, htags]
        · simp [hs, hl, lastStore, List.lookup_cons, beq_false_of_ne hl]
      · rw [hb, Function.block?_modifyBlock, hticks.block?]
        by_cases hl : l = pred
        · simp only [hl, ↓reduceIte, Option.map_map, Function.comp_def, Block.push,
            List.append_assoc, List.singleton_append]
        · simp only [hl, ↓reduceIte]

/-- The instructions of a block, with the allocation of a cell if it is the entry block. -/
def withSlot (b : Block) (l entry : BlockId) (slot : Operation Instruction) :
    List (Operation Instruction) :=
  if l = entry then
    b.instructions.take b.allocaCount ++ slot :: b.instructions.drop b.allocaCount
  else b.instructions

/-- A block after a phi of block `key` was moved to a cell. -/
def unphied (b : Block) (l key entry : BlockId) (index : Nat)
    (slot load : Operation Instruction) (stores : List (Operation Instruction)) : Block :=
  { b with
    phis := if l = key then b.phis.eraseIdx index else b.phis
    instructions := (if l = key then [load] else []) ++ withSlot b l entry slot ++ stores }

/-- A function before and after a phi was moved to cell `w`. -/
structure Dropped (f : Function) (key : BlockId) (index : Nat) (p : Operation Phi) (w : Reg)
    (g : Function) : Prop where
  header : g.header = f.header
  trap : g.trap = f.trap
  cell : w = ⟨f.nextReg⟩
  bound : w.index.toNat < g.nextReg.toNat
  blocks : ∃ (slot load : Operation Instruction) (stores : BlockId → List (Operation Instruction)),
    slot.told = (.alloca w p.kind.ty, p.tags) ∧
    load.told = (.load p.kind.dest (.reg w) p.kind.ty, p.tags) ∧
    (∀ l, (stores l).map Operation.told = lastStore w p.tags p.kind.incoming l) ∧
    ∀ l, g.graph.block? l = (f.graph.block? l).map fun b =>
      unphied b l key f.graph.entry index slot load (stores l)

theorem entry_modifyBlock (f : Function) (k : BlockId) (c : Block → Block) :
    (f.modifyBlock k c).graph.entry = f.graph.entry := rfl

theorem demotePhi_dropped {index : Nat} (hf : demotePhi f key index p = .ok g) :
    ∃ w, Dropped f key index p w g := by
  obtain ⟨⟨f₁, w⟩, h₁, hf⟩ := bind_eq_ok.mp hf
  obtain ⟨f₂, h₂, hf⟩ := bind_eq_ok.mp hf
  obtain ⟨⟨f₃, load⟩, h₃, hf⟩ := bind_eq_ok.mp hf
  cases hf
  obtain ⟨f₀, slot, ht₁, hslot, hw, hnext, rfl⟩ := createSlot_eq_ok h₁
  obtain ⟨hh₂, htrap₂, hn₂, stores, hstores, hb₂⟩ := storeIncoming_eq_ok h₂
  obtain ⟨ht₃, hkind, htags⟩ := Function.ticks_op h₃
  refine ⟨w, ⟨ht₃.header.trans (hh₂.trans ht₁.header), ht₃.trap.trans (htrap₂.trans ht₁.trap), hw,
    ?_, slot, load, stores, hslot, Operation.told_eq.mpr ⟨hkind, htags⟩, fun l => ?_,
    fun l => ?_⟩⟩
  · have h₂ : f₀.nextReg ≤ f₃.nextReg := UInt32.le_trans hn₂ ht₃.counter
    have h₂ := UInt32.le_iff_toNat_le.mp h₂
    have hw' : w.index.toNat = f.nextReg.toNat := by rw [hw]; rfl
    have hnext' : f₀.nextReg.toNat = f.nextReg.toNat + 1 := hnext
    change w.index.toNat < f₃.nextReg.toNat
    omega
  · simpa using hstores l
  · rw [Function.block?_modifyBlock, ht₃.block?, hb₂, Function.block?_modifyBlock, ht₁.block?,
      Function.block?_modifyBlock, entry_modifyBlock]
    generalize f.graph.entry = entry
    cases f.graph.block? l with
    | none => simp
    | some b =>
      rcases eq_or_ne l key with rfl | hk
      · rcases eq_or_ne l entry with rfl | he
        · simp [unphied, withSlot, Block.insertAt, Block.allocaCount]
        · simp [unphied, withSlot, Block.insertAt, he]
      · rcases eq_or_ne l entry with rfl | he
        · simp [unphied, withSlot, Block.insertAt, hk]
        · simp [unphied, withSlot, hk, he]

end Spill

open List Option

def Function.phisAt (f : Function) (k : BlockId) : List (Operation Phi) :=
  ((f.graph.block? k).map Block.phis).getD []

namespace Function

variable {f g : Function} {k : BlockId}

theorem phisAt_of_block? {b : Block} (hb : f.graph.block? k = some b) : f.phisAt k = b.phis := by
  rw [phisAt, hb]
  rfl

theorem Numbered.nodup_phis (h : f.Numbered) (k : BlockId) :
    ((f.phisAt k).map Operation.id).Nodup := by
  rw [phisAt]
  cases hb : f.graph.block? k with
  | none => exact nodup_nil
  | some b =>
    have hnodup := (nodup_flatMap.mp h.opOnce).1 b (Table.mem_values_iff.mpr ⟨k, hb⟩)
    rw [Block.opIds_eq, append_assoc] at hnodup
    exact (nodup_append.mp hnodup).1

end Function

namespace Spill

variable {f g : Function}

theorem Dropped.phisAt {key : BlockId} {i : Nat} {p : Operation Phi} {w : Reg}
    (h : Dropped f key i p w g) (k : BlockId) :
    g.phisAt k = if k = key then (f.phisAt key).eraseIdx i else f.phisAt k := by
  obtain ⟨slot, load, stores, -, -, -, hblocks⟩ := h.blocks
  rw [Function.phisAt, Function.phisAt, hblocks]
  split
  · next hk =>
    subst hk
    cases f.graph.block? k <;> simp [unphied]
  · next hk =>
    rw [Function.phisAt]
    cases f.graph.block? k <;> simp [unphied, hk]

theorem demotePhis_phisAt {l : List (BlockId × OpId)} {n n' : Nat}
    (hl : ∀ k, ∀ p ∈ f.phisAt k, (k, p.id) ∈ l)
    (hnodup : ∀ k, ((f.phisAt k).map Operation.id).Nodup)
    (hg : demotePhis l f n = .ok (g, n')) (k : BlockId) : g.phisAt k = [] := by
  induction l generalizing f n with
  | nil =>
    cases hg
    refine eq_nil_iff_forall_not_mem.mpr fun p hp => ?_
    cases hl k p hp
  | cons x l ih =>
    obtain ⟨key, op⟩ := x
    have hskip : (∀ p ∈ f.phisAt key, p.id ≠ op) → demotePhis l f n = .ok (g, n') →
        g.phisAt k = [] := by
      intro hne hg
      refine ih (fun k' p hp => ?_) hnodup hg
      rcases mem_cons.mp (hl k' p hp) with he | hm
      · cases he
        exact absurd rfl (hne p hp)
      · exact hm
    unfold demotePhis at hg
    split at hg
    · next hb =>
      refine hskip (fun p hp => ?_) hg
      rw [Function.phisAt, hb] at hp
      cases hp
    · next b hb =>
      have hat := Function.phisAt_of_block? hb
      split at hg
      · next hi =>
        refine hskip (fun p hp => ?_) hg
        have hn := findIdx?_eq_none_iff.mp hi p (hat ▸ hp)
        exact of_decide_eq_false hn
      · next i hi =>
        obtain ⟨hlt, hid, -⟩ := findIdx?_eq_some_iff_getElem.mp hi
        split at hg
        · next hp =>
          rw [getElem?_eq_getElem hlt] at hp
          cases hp
        · next p hp =>
          rw [getElem?_eq_getElem hlt, Option.some.injEq] at hp
          obtain ⟨f₁, h₁, hg⟩ := bind_eq_ok.mp hg
          obtain ⟨w, hdrop⟩ := demotePhi_dropped h₁
          have hphis := hdrop.phisAt
          refine ih (fun k' q hq => ?_) (fun k' => ?_) hg
          · rw [hphis] at hq
            split at hq
            · next he =>
              subst he
              rcases mem_cons.mp (hl k' q (mem_of_mem_eraseIdx hq)) with he | hm
              · rw [hat] at hq
                obtain ⟨j, hj, hne, rfl⟩ := mem_eraseIdx_iff_getElem.mp hq
                have hids := hnodup k'
                rw [hat] at hids
                have hj' : j < (b.phis.map Operation.id).length := by simpa using hj
                have hi' : i < (b.phis.map Operation.id).length := by simpa using hlt
                have hsame : (b.phis.map Operation.id)[j] = (b.phis.map Operation.id)[i] := by
                  rw [getElem_map, getElem_map, of_decide_eq_true hid]
                  exact congrArg Prod.snd he
                exact absurd (hids.getElem_inj_iff.mp hsame) hne
              · exact hm
            · next hne =>
              rcases mem_cons.mp (hl k' q hq) with he | hm
              · exact absurd (congrArg Prod.fst he) hne
              · exact hm
          · rw [hphis]
            split
            · next he =>
              subst he
              exact (hnodup k').sublist ((eraseIdx_sublist _ _).map _)
            · exact hnodup k'

theorem demotePhis_bare {m m' : Nat} (h : f.Numbered)
    (hg : demotePhis (phiList f) f m = .ok (g, m')) : g.Bare := by
  intro k b hb
  rw [← Function.phisAt_of_block? hb]
  refine demotePhis_phisAt (fun k p hp => ?_) h.nodup_phis hg k
  rw [Function.phisAt] at hp
  cases hb : f.graph.block? k with
  | none =>
    rw [hb] at hp
    cases hp
  | some b =>
    rw [hb] at hp
    refine Table.mem_flatMap_values.mpr ⟨k, b, hb, ?_⟩
    rw [← h.blockKey k b hb]
    exact List.mem_map_of_mem hp

end Spill

end SiteFusion
