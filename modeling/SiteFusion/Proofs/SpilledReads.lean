import SiteFusion.Proofs.SpillBlocks

namespace SiteFusion

open List Option

namespace Spill

/-- The registers that some instructions define. -/
def dests (l : List (Operation Instruction)) : List Reg := l.filterMap fun o => o.kind.dest?

theorem dests_append (l l' : List (Operation Instruction)) :
    dests (l ++ l') = dests l ++ dests l' :=
  filterMap_append

theorem dests_cons (o : Operation Instruction) (l : List (Operation Instruction)) :
    dests (o :: l) = o.kind.dest?.toList ++ dests l := by
  cases h : o.kind.dest? <;> simp [dests, h]

theorem append_subset_append {as bs cs : List Reg} (h : bs ⊆ cs) : as ++ bs ⊆ as ++ cs :=
  append_subset.mpr
    ⟨subset_append_left _ _, subset_append_of_subset_right _ h⟩

/-- Between the instructions of a block there are new ones. What holds of a new one, and how an old
one has changed, may depend on the registers defined before it. -/
inductive Woven (N : List Reg → Operation Instruction → Prop)
    (C : List Reg → Operation Instruction → Operation Instruction → Prop) :
    List Reg → List (Operation Instruction) → List (Operation Instruction) → Prop
  | nil {before} : Woven N C before [] []
  | new {before o r r'} (h : N before o) (hr : Woven N C (before ++ o.kind.dest?.toList) r r') :
    Woven N C before r (o :: r')
  | old {before p o r r'} (h : C before p o) (hd : o.kind.dest? = p.kind.dest?)
      (hr : Woven N C (before ++ o.kind.dest?.toList) r r') : Woven N C before (p :: r) (o :: r')

namespace Woven

variable {N : List Reg → Operation Instruction → Prop}
  {C : List Reg → Operation Instruction → Operation Instruction → Prop} {before : List Reg}
  {r r' s s' : List (Operation Instruction)}

theorem origin (h : Woven N C before r r') {pre post : List (Operation Instruction)}
    {o : Operation Instruction} (hs : r' = pre ++ o :: post) :
    N (before ++ dests pre) o ∨ ∃ pre₀ p post₀, r = pre₀ ++ p :: post₀ ∧
      dests pre₀ ⊆ dests pre ∧ C (before ++ dests pre) p o := by
  induction h generalizing pre with
  | nil => simp at hs
  | @new before q r r' hq _ ih =>
    cases pre with
    | nil =>
      cases hs
      exact .inl (by simpa [dests] using hq)
    | cons a pre =>
      cases hs
      rw [dests_cons, ← append_assoc]
      rcases ih rfl with h | ⟨pre₀, p, post₀, rfl, hsub, hC⟩
      · exact .inl h
      · exact .inr ⟨pre₀, p, post₀, rfl, subset_append_of_subset_right _ hsub, hC⟩
  | @old before p q r r' hq hd _ ih =>
    cases pre with
    | nil =>
      cases hs
      exact .inr ⟨[], p, r, rfl, by simp [dests], by simpa [dests] using hq⟩
    | cons a pre =>
      cases hs
      rw [dests_cons, ← append_assoc]
      rcases ih rfl with h | ⟨pre₀, p', post₀, rfl, hsub, hC⟩
      · exact .inl h
      · refine .inr ⟨p :: pre₀, p', post₀, rfl, ?_, hC⟩
        rw [dests_cons, hd]
        exact append_subset_append hsub

theorem image (h : Woven N C before r r') {p : Operation Instruction} (hp : p ∈ r) :
    ∃ o ∈ r', ∃ before', C before' p o := by
  induction h with
  | nil => cases hp
  | new _ _ ih =>
    obtain ⟨o, ho, hC⟩ := ih hp
    exact ⟨o, mem_cons_of_mem _ ho, hC⟩
  | @old before q o r r' hq _ _ ih =>
    rcases mem_cons.mp hp with rfl | hp
    · exact ⟨o, mem_cons_self, before, hq⟩
    · obtain ⟨o, ho, hC⟩ := ih hp
      exact ⟨o, mem_cons_of_mem _ ho, hC⟩

theorem dests_subset (h : Woven N C before r r') : dests r ⊆ dests r' := by
  induction h with
  | nil => simp
  | new _ _ ih =>
    rw [dests_cons]
    exact subset_append_of_subset_right _ ih
  | old _ hd _ ih =>
    rw [dests_cons, dests_cons, hd]
    exact append_subset_append ih

theorem refl (hC : ∀ before o, C before o o) (r : List (Operation Instruction)) :
    Woven N C before r r := by
  induction r generalizing before with
  | nil => exact .nil
  | cons o r ih => exact .old (hC _ o) rfl ih

theorem append (h : Woven N C before r r') (h' : Woven N C (before ++ dests r') s s') :
    Woven N C before (r ++ s) (r' ++ s') := by
  induction h with
  | nil => simpa [dests] using h'
  | new hN _ ih => exact .new hN (ih (by rwa [dests_cons, ← append_assoc] at h'))
  | old hC hd _ ih => exact .old hC hd (ih (by rwa [dests_cons, ← append_assoc] at h'))

end Woven

variable {f g : Function} {d : Definition} {w : Reg} {l key : BlockId} {b b' : Block}
  {tail : BlockId → List Reg} {entry : BlockId} {N : List Reg → Operation Instruction → Prop}
  {before' : List Reg} {here stored : Bool} {index : Nat}

/-- An instruction that belongs to the cell of a value. -/
inductive Added (d : Definition) (w : Reg) (before : List Reg) (o : Operation Instruction) : Prop
  | slot (h : o.told = (.alloca w d.ty, d.tags))
  | load {v : Reg} (h : o.told = (.load v (.reg w) d.ty, d.tags))
      (hv : w.index.toNat < v.index.toNat)
  | store (h : o.told = (.store (.reg w) (.reg d.reg), d.tags)) (hd : d.reg ∈ before)

/-- An instruction that stays, and may read what was loaded. -/
structure Kept (d : Definition) (before : List Reg) (p o : Operation Instruction) : Prop where
  id : o.id = p.id
  tags : o.tags = p.tags
  kind : o.kind = p.kind ∨ ∃ v ∈ before, o.kind = p.kind.replaceUse d.reg (.reg v)

theorem Kept.refl (before : List Reg) (o : Operation Instruction) : Kept d before o o :=
  ⟨rfl, rfl, .inl rfl⟩

theorem Spills.woven {tail : List Reg} {r r' : List (Operation Instruction)}
    (h : Spills d w true tail here r r') (before : List Reg) :
    Woven (Added d w) (Kept d) before r r' := by
  induction h generalizing before with
  | @done loads hloads htail =>
    induction loads generalizing tail before with
    | nil => exact .nil
    | cons o loads ih =>
      cases tail with
      | nil => cases hloads
      | cons v tail =>
        rw [map_cons, map_cons, List.cons.injEq] at hloads
        exact .new (.load hloads.1 (htail v (by simp)))
          (ih hloads.2 (fun u hu => htail u (mem_cons_of_mem _ hu)) _)
  | keep _ _ _ ih => exact .old (.refl _ _) rfl (ih _)
  | slot ho _ _ ih => exact .new (.slot ho) (ih _)
  | @reload o load v r r' ho hl hv _ ih =>
    have hdest : load.kind.dest? = some v := by rw [(Operation.told_eq.mp hl).1]; rfl
    refine .new (.load hl hv) (.old ⟨rfl, rfl, .inr ⟨v, ?_, rfl⟩⟩ ?_ (ih _))
    · simp [hdest]
    · exact Instruction.dest?_replaceUse _ _ _
  | define _ ho hs _ ih => exact .old (.refl _ _) rfl (.new (.store hs (by simp [ho])) (ih _))

theorem Spills.tail_subset {tail : List Reg} {r r' : List (Operation Instruction)}
    (h : Spills d w stored tail here r r') : tail ⊆ dests r' := by
  induction h with
  | @done loads hloads _ =>
    intro v hv
    have hm : (Instruction.load v (.reg w) d.ty, d.tags) ∈ loads.map Operation.told := by
      rw [hloads]
      exact List.mem_map_of_mem hv
    obtain ⟨o, ho, htold⟩ := List.mem_map.mp hm
    exact mem_filterMap.mpr ⟨o, ho, by rw [(Operation.told_eq.mp htold).1]; rfl⟩
  | keep _ _ _ ih | slot _ _ _ ih =>
    rw [dests_cons]
    exact subset_append_of_subset_right _ ih
  | reload _ _ _ _ ih | define _ _ _ _ ih =>
    rw [dests_cons, dests_cons]
    exact subset_append_of_subset_right _ (subset_append_of_subset_right _ ih)

theorem Spills.slot_mem {tail : List Reg} {r r' : List (Operation Instruction)}
    (h : Spills d w stored tail here r r') (hhere : here = true) :
    ∃ o ∈ r', o.told = (.alloca w d.ty, d.tags) := by
  induction h with
  | done => cases hhere
  | keep _ _ _ ih =>
    obtain ⟨o, ho, htold⟩ := ih hhere
    exact ⟨o, mem_cons_of_mem _ ho, htold⟩
  | slot ho => exact ⟨_, mem_cons_self, ho⟩
  | reload | define => cases hhere

namespace Relocated

theorem dests_phis (h : Relocated d w entry tail l b b') :
    (b'.phis.map fun p => p.kind.dest) = b.phis.map fun p => p.kind.dest := by
  obtain ⟨s, hc, hb'⟩ := h
  have hs : (s.phis.map fun p => p.kind.dest) = b.phis.map fun p => p.kind.dest := by
    have := hc.phis
    generalize b.phis = ps at this
    generalize s.phis = qs at this
    induction this with
    | nil => rfl
    | cons hq _ ih => rw [map_cons, map_cons, ih, hq.2.2.2.1]
  split at hb'
  · obtain ⟨store, -, rfl⟩ := hb'
    exact hs
  · rw [hb', hs]

theorem woven (h : Relocated d w entry tail l b b') :
    Woven (Added d w) (Kept d) (b'.phis.map fun p => p.kind.dest) b.instructions
      b'.instructions := by
  rw [h.dests_phis]
  obtain ⟨s, hc, hb'⟩ := h
  split at hb'
  · next hm =>
    obtain ⟨store, hstore, rfl⟩ := hb'
    exact .new (.store hstore hm) (hc.instructions.woven _)
  · rw [hb']
    exact hc.instructions.woven _

theorem defs_subset (h : Relocated d w entry tail l b b') : b.defs ⊆ b'.defs := by
  rw [Block.defs, Block.defs, h.dests_phis]
  exact append_subset_append h.woven.dests_subset

theorem tail_subset (h : Relocated d w entry tail l b b') : tail l ⊆ b'.defs := by
  obtain ⟨s, hc, hb'⟩ := h
  have hs : tail l ⊆ s.defs :=
    subset_append_of_subset_right _ hc.instructions.tail_subset
  split at hb'
  · obtain ⟨store, hstore, rfl⟩ := hb'
    have hdefs : (s.insertAt 0 store).defs = s.defs := by
      simp [Block.defs, Block.insertAt, (Operation.told_eq.mp hstore).1, Instruction.dest?]
    rwa [hdefs]
  · rwa [hb']

theorem slot_mem (h : Relocated d w entry tail l b b') (hl : l = entry) :
    ∃ o ∈ b'.instructions, o.told = (.alloca w d.ty, d.tags) := by
  obtain ⟨s, hc, hb'⟩ := h
  obtain ⟨o, ho, htold⟩ := hc.instructions.slot_mem (by simpa using hl)
  split at hb'
  · obtain ⟨store, -, rfl⟩ := hb'
    exact ⟨o, mem_cons_of_mem _ ho, htold⟩
  · exact ⟨o, hb' ▸ ho, htold⟩

theorem exit (h : Relocated d w entry tail l b b') : b'.terminator.id = b.terminator.id ∧
    b'.terminator.tags = b.terminator.tags ∧
      ReloadedExit d.reg (tail l) b.terminator.kind b'.terminator.kind := by
  obtain ⟨s, hc, hb'⟩ := h
  split at hb'
  · obtain ⟨store, -, rfl⟩ := hb'
    exact ⟨hc.exitId, hc.exitTags, hc.exit⟩
  · rw [hb']
    exact ⟨hc.exitId, hc.exitTags, hc.exit⟩

theorem phis (h : Relocated d w entry tail l b b') :
    List.Forall₂ (fun q q' => q'.id = q.id ∧ q'.tags = q.tags ∧ q'.kind.ty = q.kind.ty ∧
      ReloadedPhi d.reg tail q.kind q'.kind) b.phis b'.phis := by
  obtain ⟨s, hc, hb'⟩ := h
  split at hb'
  · obtain ⟨store, -, rfl⟩ := hb'
    exact hc.phis
  · rw [hb']
    exact hc.phis

end Relocated

/-- An instruction that belongs to the cell of a phi, in block `l`. -/
inductive AddedFor (p : Operation Phi) (w : Reg) (l : BlockId) (all before : List Reg)
    (o : Operation Instruction) : Prop
  | slot (h : o.told = (.alloca w p.kind.ty, p.tags))
  | load (h : o.told = (.load p.kind.dest (.reg w) p.kind.ty, p.tags)) (hd : p.kind.dest ∈ all)
  | store {v : Operand} (h : o.told = (.store (.reg w) v, p.tags))
      (hv : p.kind.incoming.lookup l = some v) (hall : all ⊆ before)

/-- An instruction stays as it is. -/
def Same (_ : List Reg) (p o : Operation Instruction) : Prop := o = p

theorem woven_same (before : List Reg) (r : List (Operation Instruction)) :
    Woven N Same before r r :=
  Woven.refl (C := Same) (fun _ _ => rfl) r

theorem woven_insertAt {before : List Reg} {o : Operation Instruction} (h : ∀ before, N before o)
    (r : List (Operation Instruction)) (i : Nat) :
    Woven N Same before r (r.take i ++ o :: r.drop i) := by
  have hsplit := (woven_same before (r.take i)).append (.new (h _) (woven_same _ (r.drop i)))
  rwa [take_append_drop] at hsplit

theorem mem_dests_eraseIdx {index : Nat} {p : Operation Phi}
    (hp : l = key → b.phis[index]? = some p) {r : Reg}
    (hr : r ∈ b.phis.map fun p => p.kind.dest) :
    r ∈ ((if l = key then b.phis.eraseIdx index else b.phis).map fun p => p.kind.dest) ∨
      l = key ∧ r = p.kind.dest := by
  split
  · next hl =>
    obtain ⟨q, hq, rfl⟩ := List.mem_map.mp hr
    obtain ⟨i, hi⟩ := getElem?_of_mem hq
    by_cases hii : i = index
    · subst hii
      rw [hp hl] at hi
      cases hi
      exact .inr ⟨hl, rfl⟩
    · exact .inl (List.mem_map.mpr ⟨q, mem_eraseIdx_iff_getElem?.mpr ⟨i, hii, hi⟩, rfl⟩)
  · exact .inl hr

theorem unphied_woven {p : Operation Phi} {slot load : Operation Instruction}
    {stores : List (Operation Instruction)} (hp : l = key → b.phis[index]? = some p)
    (hslot : slot.told = (.alloca w p.kind.ty, p.tags))
    (hload : load.told = (.load p.kind.dest (.reg w) p.kind.ty, p.tags))
    (hstores : stores.map Operation.told = lastStore w p.tags p.kind.incoming l) :
    Woven (AddedFor p w l b.defs) Same
      ((unphied b l key entry index slot load stores).phis.map fun p => p.kind.dest)
      b.instructions (unphied b l key entry index slot load stores).instructions := by
  have hdest : load.kind.dest? = some p.kind.dest := by
    rw [(Operation.told_eq.mp hload).1]
    rfl
  have hmem := fun r => @mem_dests_eraseIdx l key b index p hp r
  change Woven _ _
    ((if l = key then b.phis.eraseIdx index else b.phis).map fun p => p.kind.dest) _ _
  generalize ((if l = key then b.phis.eraseIdx index else b.phis).map fun p =>
    p.kind.dest) = before at hmem ⊢
  -- the middle part is what was there, with the cell in the entry block
  have hmid : ∀ before, Woven (AddedFor p w l b.defs) Same before b.instructions
      (withSlot b l entry slot) := by
    intro before
    unfold withSlot
    split
    · exact woven_insertAt (fun _ => .slot hslot) _ _
    · exact woven_same _ _
  have hhead : ∀ before, Woven (AddedFor p w l b.defs) Same before []
      (if l = key then [load] else []) := by
    intro before
    split
    · next hl =>
      have hmem : p ∈ b.phis := mem_of_getElem? (hp hl)
      exact .new (.load hload (mem_append_left _ (List.mem_map_of_mem hmem))) .nil
    · exact .nil
  have hfront := (hhead before).append (hmid _)
  have hlast : Woven (AddedFor p w l b.defs) Same
      (before ++ dests ((if l = key then [load] else []) ++ withSlot b l entry slot)) []
      stores := by
    have hall : b.defs ⊆
        before ++ dests ((if l = key then [load] else []) ++ withSlot b l entry slot) := by
      intro r hr
      rw [dests_append]
      rcases mem_append.mp hr with hr | hr
      · rcases hmem r hr with hr | ⟨hl, rfl⟩
        · exact mem_append_left _ hr
        · refine mem_append_right _ (mem_append_left _ ?_)
          simp [hl, dests, hdest]
      · exact mem_append_right _ (mem_append_right _ ((hmid []).dests_subset hr))
    unfold lastStore at hstores
    split at hstores
    · rw [map_eq_nil_iff.mp hstores]
      exact .nil
    · next v hv =>
      obtain ⟨o, rfl, ho⟩ := map_eq_singleton_iff.mp hstores
      exact .new (.store ho hv hall) .nil
  simpa [unphied] using hfront.append hlast

/-- A register may be read in block `l`, where `before` was defined earlier in that block. What is
`left` is still to be moved to memory. -/
inductive Readable (P : BlockId → Reg → Prop) (f : Function) (left : List Definition) (l : BlockId)
    (before : List Reg) (r : Reg) : Prop
  | here (h : r ∈ before)
  | given (h : P l r)
  | cell (h : f.Allocates r)
  | later {d : Definition} (hd : d ∈ left) (hr : d.reg = r) (hl : d.block ≠ l)

/-- All registers are read where they may be. What a phi reads is read at the end of the block that
control comes from, wherever it is defined. -/
structure Settled (P : BlockId → Reg → Prop) (left : List Definition) (f : Function) : Prop where
  body : ∀ {l b}, f.graph.block? l = some b → ∀ {pre o post}, b.instructions = pre ++ o :: post →
    ∀ r ∈ o.kind.uses, Readable P f left l ((b.phis.map fun p => p.kind.dest) ++ dests pre) r
  exit : ∀ {l b}, f.graph.block? l = some b → ∀ r ∈ b.terminator.kind.uses,
    Readable P f left l b.defs r
  phis : ∀ {l b}, f.graph.block? l = some b → ∀ p ∈ b.phis, ∀ {a r}, (a, .reg r) ∈ p.kind.incoming →
    ∀ {s}, f.graph.block? a = some s → Readable P f [] a s.defs r ∨ ∃ d ∈ left, d.reg = r

variable {P : BlockId → Reg → Prop} {left : List Definition}

theorem forall₂_exists_right {α β : Type} {R : α → β → Prop} {as : List α} {bs : List β}
    (h : List.Forall₂ R as bs) {x : α} (hx : x ∈ as) : ∃ y ∈ bs, R x y :=
  forall₂_exists_left h.flip hx

theorem allocates_of_block {o : Operation Instruction} {r : Reg} {ty : Ty}
    (hb : f.graph.block? l = some b) (ho : o ∈ b.instructions) (hk : o.kind = .alloca r ty) :
    f.Allocates r :=
  ⟨o, Function.mem_instructions.mpr ⟨l, b, hb, ho⟩, ty, hk⟩

theorem Moved.allocates (h : Moved f d w tail g) {r : Reg} (hr : f.Allocates r) :
    g.Allocates r := by
  obtain ⟨o, ho, ty, hk⟩ := hr
  obtain ⟨l, b, hb, ho⟩ := Function.mem_instructions.mp ho
  obtain ⟨b', hb', hrel⟩ := rel_some (h.block l) hb
  obtain ⟨o', ho', _, hkept⟩ := hrel.woven.image ho
  have hkind : o'.kind = .alloca r ty := by
    rcases hkept.kind with hk' | ⟨v, -, hk'⟩
    · rw [hk', hk]
    · rw [hk', hk]
      rfl
  exact allocates_of_block hb' ho' hkind

theorem Moved.allocates_cell (h : Moved f d w tail g)
    (hentry : (f.graph.block? f.graph.entry).isSome) : g.Allocates w := by
  obtain ⟨b, hb⟩ := isSome_iff_exists.mp hentry
  obtain ⟨b', hb', hrel⟩ := rel_some (h.block _) hb
  obtain ⟨o, ho, htold⟩ := hrel.slot_mem rfl
  exact allocates_of_block hb' ho (Operation.told_eq.mp htold).1

theorem Readable.weaken {left' : List Definition} {before : List Reg} {r : Reg}
    (h : Readable P f left l before r) (hb : before ⊆ before')
    (ha : ∀ r, f.Allocates r → g.Allocates r)
    (hl : ∀ e ∈ left, e.reg = r → e.block ≠ l → e ∈ left') : Readable P g left' l before' r := by
  cases h with
  | here h => exact .here (hb h)
  | given h => exact .given h
  | cell h => exact .cell (ha r h)
  | later hm hr hne => exact .later (hl _ hm hr hne) hr hne

theorem Readable.mono {before : List Reg} {r : Reg} (h : Readable P f left l before r)
    (hb : before ⊆ before') (ha : ∀ r, f.Allocates r → g.Allocates r) :
    Readable P g left l before' r :=
  h.weaken hb ha fun _ he _ _ => he

theorem Settled.moved (hs : Settled P (d :: left) f) (h : Moved f d w tail g)
    (hentry : (f.graph.block? f.graph.entry).isSome) : Settled P left g := by
  have hw := h.allocates_cell hentry
  constructor
  case body =>
    intro l b' hb' pre o post hsplit r hr
    obtain ⟨b, hb, hrel⟩ := rel_some_right (h.block l) hb'
    have hclear : ∀ e ∈ d :: left, e.reg = r → e.block ≠ l → e ∈ left := by
      rintro e he rfl hne
      refine (mem_cons.mp he).resolve_left ?_
      rintro rfl
      exact ((h.cleared l b' hb').1 hne.symm).1 o (by simp [hsplit]) hr
    rcases hrel.woven.origin hsplit with hadd | ⟨pre₀, p, post₀, hsplit₀, hsub, hkept⟩
    · cases hadd with
      | slot ho =>
        rw [uses_alloca ho] at hr
        cases hr
      | load ho _ =>
        rw [uses_load ho, mem_singleton] at hr
        exact .cell (hr ▸ hw)
      | store ho hd =>
        rw [(Operation.told_eq.mp ho).1] at hr
        have hr : r ∈ [w, d.reg] := hr
        rcases mem_pair.mp hr with rfl | rfl
        · exact .cell hw
        · exact .here hd
    · have hold : r ∈ p.kind.uses → Readable P g left l
          ((b'.phis.map fun p => p.kind.dest) ++ dests pre) r := by
        intro hrp
        refine (hs.body hb hsplit₀ r hrp).weaken ?_ (fun _ => h.allocates) hclear
        rw [hrel.dests_phis]
        exact append_subset_append hsub
      rcases hkept.kind with hk | ⟨v, hv, hk⟩
      · exact hold (hk ▸ hr)
      · rw [hk] at hr
        rcases mem_uses_replaceUse hr with rfl | hr
        · exact .here hv
        · exact hold hr.1
  case exit =>
    intro l b' hb' r hr
    obtain ⟨b, hb, hrel⟩ := rel_some_right (h.block l) hb'
    have hclear : ∀ e ∈ d :: left, e.reg = r → e.block ≠ l → e ∈ left := by
      rintro e he rfl hne
      refine (mem_cons.mp he).resolve_left ?_
      rintro rfl
      exact ((h.cleared l b' hb').1 hne.symm).2 hr
    have hold : r ∈ b.terminator.kind.uses → Readable P g left l b'.defs r := fun hrt =>
      (hs.exit hb r hrt).weaken hrel.defs_subset (fun _ => h.allocates) hclear
    rcases hrel.exit.2.2 with heq | ⟨v, hv, heq⟩
    · exact hold (heq ▸ hr)
    · rw [heq] at hr
      rcases mem_uses_terminator_replaceUse hr with rfl | hr
      · exact .here (hrel.tail_subset hv)
      · exact hold hr.1
  case phis =>
    intro l b' hb' p' hp' a r hr s' hs'
    obtain ⟨b, hb, hrel⟩ := rel_some_right (h.block l) hb'
    obtain ⟨s, hsb, hrels⟩ := rel_some_right (h.block a) hs'
    obtain ⟨p, hp, -, -, -, -, hinc⟩ := forall₂_exists_left hrel.phis hp'
    obtain ⟨e, he, hkey, hop⟩ := forall₂_exists_left hinc hr
    rcases hop with hop | ⟨-, v, hv, hop⟩
    · have he' : (a, .reg r) ∈ p.kind.incoming := by
        rw [show ((a, .reg r) : BlockId × Operand) = e from Prod.ext hkey hop]
        exact he
      rcases hs.phis hb p hp he' hsb with hread | ⟨d', hd', hdr⟩
      · exact .inl (hread.mono hrels.defs_subset fun _ => h.allocates)
      · rcases mem_cons.mp hd' with rfl | hd'
        · have := ((h.cleared l) b' hb').2 a ⟨p', hp', by rw [hdr]; exact hr⟩
          rw [this] at hs'
          cases hs'
        · exact .inr ⟨d', hd', hdr⟩
    · cases hop
      cases hkey
      exact .inl (.here (hrels.tail_subset hv))

namespace Dropped

variable {index : Nat} {p : Operation Phi}

theorem cases_block (h : Dropped f key index p w g)
    (hp : ∀ b, f.graph.block? key = some b → b.phis[index]? = some p)
    (hb' : g.graph.block? l = some b') : ∃ b, f.graph.block? l = some b ∧
      b'.terminator = b.terminator ∧ b'.id = b.id ∧
      (b'.phis = if l = key then b.phis.eraseIdx index else b.phis) ∧
      (l = f.graph.entry → ∃ o ∈ b'.instructions, o.told = (.alloca w p.kind.ty, p.tags)) ∧
      (l = key → ∃ load rest, b'.instructions = load :: rest ∧
        load.told = (.load p.kind.dest (.reg w) p.kind.ty, p.tags)) ∧
      Woven (AddedFor p w l b.defs) Same (b'.phis.map fun p => p.kind.dest) b.instructions
        b'.instructions := by
  obtain ⟨slot, load, stores, hslot, hload, hstores, hblock⟩ := h.blocks
  rw [hblock] at hb'
  obtain ⟨b, hb, rfl⟩ := map_eq_some_iff.mp hb'
  refine ⟨b, hb, rfl, rfl, rfl, fun hl => ⟨slot, ?_, hslot⟩, fun hl => ?_,
    unphied_woven (fun hl => hp b (hl ▸ hb)) hslot hload (hstores l)⟩
  · simp [unphied, withSlot, hl]
  · exact ⟨load, withSlot b l f.graph.entry slot ++ stores l, by simp [unphied, hl], hload⟩

theorem exists_block (h : Dropped f key index p w g) (hb : f.graph.block? l = some b) :
    ∃ b', g.graph.block? l = some b' := by
  obtain ⟨slot, load, stores, -, -, -, hblock⟩ := h.blocks
  exact ⟨_, by rw [hblock, hb]; rfl⟩

theorem dests_phis_subset (hb : b'.phis = if l = key then b.phis.eraseIdx index else b.phis)
    (hp : l = key → b.phis[index]? = some p)
    (hload : l = key → ∃ load rest, b'.instructions = load :: rest ∧
      load.told = (.load p.kind.dest (.reg w) p.kind.ty, p.tags))
    (hsub : dests b.instructions ⊆ dests b'.instructions) : b.defs ⊆ b'.defs := by
  intro r hr
  rcases mem_append.mp hr with hr | hr
  · rcases mem_dests_eraseIdx hp hr with hr | ⟨hl, rfl⟩
    · exact mem_append_left _ (hb ▸ hr)
    · obtain ⟨load, rest, hrest, htold⟩ := hload hl
      refine mem_append_right _ (mem_filterMap.mpr ⟨load, by simp [hrest], ?_⟩)
      rw [(Operation.told_eq.mp htold).1]
      rfl
  · exact mem_append_right _ (hsub hr)

theorem allocates (h : Dropped f key index p w g)
    (hp : ∀ b, f.graph.block? key = some b → b.phis[index]? = some p) {r : Reg}
    (hr : f.Allocates r) : g.Allocates r := by
  obtain ⟨o, ho, ty, hk⟩ := hr
  obtain ⟨l, b, hb, ho⟩ := Function.mem_instructions.mp ho
  obtain ⟨b', hb'⟩ := h.exists_block hb
  obtain ⟨b₀, hb₀, -, -, -, -, -, hwoven⟩ := h.cases_block hp hb'
  rw [hb] at hb₀
  cases hb₀
  obtain ⟨_, ho', _, rfl⟩ := hwoven.image ho
  exact allocates_of_block hb' ho' hk

theorem allocates_cell (h : Dropped f key index p w g)
    (hp : ∀ b, f.graph.block? key = some b → b.phis[index]? = some p)
    (hentry : (f.graph.block? f.graph.entry).isSome) : g.Allocates w := by
  obtain ⟨b, hb⟩ := isSome_iff_exists.mp hentry
  obtain ⟨b', hb'⟩ := h.exists_block hb
  obtain ⟨-, -, -, -, -, hslot, -⟩ := h.cases_block hp hb'
  obtain ⟨o, ho, htold⟩ := hslot rfl
  exact allocates_of_block hb' ho (Operation.told_eq.mp htold).1

end Dropped

theorem mem_of_lookup {es : List (BlockId × Operand)} {a : BlockId} {v : Operand}
    (h : es.lookup a = some v) : (a, v) ∈ es := by
  obtain ⟨l₁, l₂, rfl, -⟩ := List.lookup_eq_some_iff.mp h
  simp

theorem Settled.dropped {p : Operation Phi} (hs : Settled P [] f) (h : Dropped f key index p w g)
    {b₀ : Block} (hkey : f.graph.block? key = some b₀) (hphi : b₀.phis[index]? = some p)
    (hentry : (f.graph.block? f.graph.entry).isSome) : Settled P [] g := by
  have hp : ∀ b, f.graph.block? key = some b → b.phis[index]? = some p := by
    intro b hb
    rw [hkey] at hb
    cases hb
    exact hphi
  have hw := h.allocates_cell hp hentry
  have ha := fun r => @Dropped.allocates f g w key index p h hp r
  constructor
  case body =>
    intro l b' hb' pre o post hsplit r hr
    obtain ⟨b, hb, -, -, hphis, -, hload, hwoven⟩ := h.cases_block hp hb'
    by_cases huse : o.kind.uses = [w]
    · rw [huse] at hr
      exact .cell (mem_singleton.mp hr ▸ hw)
    have hpre : l = key → p.kind.dest ∈ dests pre := by
      intro hl
      obtain ⟨load, rest, hrest, htold⟩ := hload hl
      obtain ⟨hkind, -⟩ := Operation.told_eq.mp htold
      rw [hsplit] at hrest
      cases pre with
      | nil =>
        cases hrest
        exact absurd (by rw [hkind]; rfl) huse
      | cons a pre =>
        cases hrest
        exact mem_filterMap.mpr ⟨load, by simp, by rw [hkind]; rfl⟩
    rcases hwoven.origin hsplit with hadd | ⟨pre₀, q, post₀, hsplit₀, hsub, rfl⟩
    · cases hadd with
      | slot ho =>
        rw [(Operation.told_eq.mp ho).1] at hr
        cases hr
      | load ho _ => exact absurd (by rw [(Operation.told_eq.mp ho).1]; rfl) huse
      | @store v ho hv hall =>
        rw [(Operation.told_eq.mp ho).1] at hr
        cases v with
        | const c => exact absurd (by rw [(Operation.told_eq.mp ho).1]; rfl) huse
        | reg u =>
          have hr : r ∈ [w, u] := hr
          rcases mem_pair.mp hr with rfl | rfl
          · exact .cell hw
          · rcases hs.phis hkey p (mem_of_getElem? hphi) (mem_of_lookup hv) hb with
              hread | ⟨d, hd, -⟩
            · exact hread.mono hall ha
            · cases hd
    · have hr₀ := hs.body hb hsplit₀ r hr
      refine hr₀.mono (fun x hx => ?_) ha
      rcases mem_append.mp hx with hx | hx
      · rcases mem_dests_eraseIdx (fun hl : l = key => hp b (hl ▸ hb)) hx with hx | ⟨hl, rfl⟩
        · exact mem_append_left _ (hphis ▸ hx)
        · exact mem_append_right _ (hpre hl)
      · exact mem_append_right _ (hsub hx)
  case exit =>
    intro l b' hb' r hr
    obtain ⟨b, hb, hterm, -, hphis, -, hdest, hwoven⟩ := h.cases_block hp hb'
    rw [hterm] at hr
    exact (hs.exit hb r hr).mono (Dropped.dests_phis_subset hphis (fun hl => hp b (hl ▸ hb)) hdest
      hwoven.dests_subset) ha
  case phis =>
    intro l b' hb' q hq a r hr s' hs'
    obtain ⟨b, hb, -, -, hphis, -⟩ := h.cases_block hp hb'
    obtain ⟨s, hsb, -, -, hphis', -, hdest, hwoven⟩ := h.cases_block hp hs'
    have hq₀ : q ∈ b.phis := by
      rw [hphis] at hq
      split at hq
      · exact mem_of_mem_eraseIdx hq
      · exact hq
    rcases hs.phis hb q hq₀ hr hsb with hread | ⟨d, hd, -⟩
    · exact .inl (hread.mono (Dropped.dests_phis_subset hphis' (fun hl => hp s (hl ▸ hsb)) hdest
        hwoven.dests_subset) ha)
    · cases hd

end Spill

end SiteFusion
