import SiteFusion.Proofs.CellRuns
import SiteFusion.Proofs.SpilledFunctions

namespace SiteFusion

open List Option

variable {d : Option Reg} {w x : Reg} {ι κ : Placing} {ρ τ : Regs} {y v v' : Option Value} {z : Value}
  {p p' : Proc} {k l : BlockId}

namespace Regs

variable {ds : List Reg} {vs : List Value} {r : Reg}

theorem bind_of_not_mem (h : r ∉ ds) : Regs.bind ds vs ρ r = ρ r := by
  induction ds generalizing vs ρ with
  | nil => rfl
  | cons d ds ih =>
    rw [mem_cons, not_or] at h
    cases vs with
    | nil => rfl
    | cons v vs =>
      rw [Regs.bind, ih h.2, put_of_ne]
      exact fun he => h.1 (Option.some.inj he).symm

theorem put_bind (h : r ∉ ds) (v : Value) :
    (Regs.bind ds vs ρ).put (some r) (some v) = Regs.bind ds vs (ρ.put (some r) (some v)) := by
  have hpin : ∀ σ : Regs, σ.put (some r) (some v) = σ.pin (some r) (some v) := fun σ =>
    funext fun x => by simp [put, pin, eq_comm]
  rw [hpin, hpin, bind_pin]
  rintro x hx ⟨⟩
  exact h hx

theorem put_ne_none {e : Option Reg} (h : e = some r ∨ ρ r ≠ none) (v : Option Value) :
    ρ.put e v r ≠ none := by
  by_cases he : e = some r
  · rw [he, put_self]
    exact some_ne_none _
  · rw [put_of_ne he]
    exact h.resolve_left he

theorem bind_ne_none (h : r ∈ ds ∧ ds.length ≤ vs.length ∨ ρ r ≠ none) :
    Regs.bind ds vs ρ r ≠ none := by
  induction ds generalizing vs ρ with
  | nil => exact h.resolve_left fun h => by cases h.1
  | cons d ds ih =>
    cases vs with
    | nil => exact h.resolve_left fun h => by cases h.2
    | cons v vs =>
      refine ih ?_
      rcases h with ⟨hr, hn⟩ | h
      · rcases mem_cons.mp hr with rfl | hr
        · exact .inr (put_ne_none (.inl rfl) _)
        · exact .inl ⟨hr, Nat.le_of_succ_le_succ hn⟩
      · exact .inr (put_ne_none (.inr h) _)

end Regs

/-- What is left of a block, here and there. The cell `w` is for the register `d`, if there is one,
and `last` is done with it at the end. It is still to be allocated `here`. -/
inductive Laced (d : Option Reg) (w : Reg) (last : List Instruction) :
    Bool → List Instruction → List Instruction → Prop
  | done : Laced d w last false [] last
  | keep {here i r r'} (hi : ∀ x ∈ d, i.dest? ≠ some x) (h : Laced d w last here r r') :
    Laced d w last here (i :: r) (i :: r')
  | slot {r r'} (ty : Ty) (h : Laced d w last false r r') :
    Laced d w last true r (.alloca w ty :: r')
  | reload {x v i r r'} (ty : Ty) (hx : d = some x) (hi : i.dest? ≠ some x)
      (hv : w.index.toNat < v.index.toNat) (h : Laced d w last false r r') :
    Laced d w last false (i :: r) (.load v (.reg w) ty :: i.replaceUse x (.reg v) :: r')
  | define {x i r r'} (hx : d = some x) (hi : i.dest? = some x) (h : Laced d w last false r r') :
    Laced d w last false (i :: r) (i :: .store (.reg w) (.reg x) :: r')

theorem Laced.mem_dests {last r r' : List Instruction} {here : Bool} (h : Laced d w last here r r')
    {i : Instruction} (hi : i ∈ r ++ last) : ∃ i' ∈ r', i'.dest? = i.dest? := by
  induction h with
  | done => exact ⟨i, hi, rfl⟩
  | slot _ _ ih =>
    obtain ⟨i', hi', he⟩ := ih hi
    exact ⟨i', mem_cons_of_mem _ hi', he⟩
  | @keep _ j _ _ _ _ ih | @define _ j _ _ _ _ _ ih =>
    rcases mem_cons.mp hi with rfl | hi
    · exact ⟨i, mem_cons_self, rfl⟩
    · obtain ⟨i', hi', he⟩ := ih hi
      exact ⟨i', by simp [hi'], he⟩
  | reload _ _ _ _ _ ih =>
    rcases mem_cons.mp hi with rfl | hi
    · exact ⟨_, mem_cons_of_mem _ mem_cons_self, Instruction.dest?_mapOperands ..⟩
    · obtain ⟨i', hi', he⟩ := ih hi
      exact ⟨i', by simp [hi'], he⟩

/-- The registers are the same, but for those from `w` on. -/
structure Matches (w : Reg) (ι : Placing) (ρ τ : Regs) : Prop where
  agree : Coding.all.Agree id ι ρ τ
  low : ∀ r, ρ r ≠ none → r.index.toNat < w.index.toNat
  hides : τ.Hides (some w)

theorem Carried.extend {u : Option Value} (h : Carried id ι u y) (he : ι.Extends κ) :
    Carried id κ u y := by
  intro v hv
  obtain ⟨v', hv', hm⟩ := h v hv
  exact ⟨v', hv', hm.extend he⟩

namespace Matches

theorem extend (h : Matches w ι ρ τ) (he : ι.Extends κ) : Matches w κ ρ τ :=
  ⟨h.agree.extend he, h.low, h.hides⟩

theorem put {e : Option Reg} (h : Matches w ι ρ τ) (he : ∀ r ∈ e, r.index.toNat < w.index.toNat)
    (hm : MovedOption id ι v v') : Matches w ι (ρ.put e v) (τ.put e v') := by
  refine ⟨agree_put h.agree hm, fun r hr => ?_, h.hides.put (fun r hr hw => ?_) _⟩
  · by_cases her : e = some r
    · exact he r her
    · rw [Regs.put_of_ne her] at hr
      exact h.low r hr
  · cases hw
    exact Nat.lt_irrefl _ (he w hr)

theorem low_bind {ds : List Reg} {vs : List Value} (h : Matches w ι ρ τ)
    (hd : ∀ r ∈ ds, r.index.toNat < w.index.toNat) (r : Reg) (hr : Regs.bind ds vs ρ r ≠ none) :
    r.index.toNat < w.index.toNat := by
  by_cases hrd : r ∈ ds
  · exact hd r hrd
  · rw [Regs.bind_of_not_mem hrd] at hr
    exact h.low r hr

theorem bind {ds : List Reg} {vs us : List Value} (h : Matches w ι ρ τ)
    (hd : ∀ r ∈ ds, r.index.toNat < w.index.toNat) (hall : List.Forall₂ (Moved id ι) vs us) :
    Matches w ι (Regs.bind ds vs ρ) (Regs.bind ds us τ) := by
  refine ⟨agree_bind h.agree hall, h.low_bind hd, h.hides.bind (fun r hr hw => ?_) _⟩
  cases hw
  exact Nat.lt_irrefl _ (hd w hr)

theorem load (h : Matches w ι ρ τ) {r : Reg} (hr : w.index.toNat < r.index.toNat) (z : Value) :
    Matches w ι ρ (τ.put (some r) (some z)) := by
  refine ⟨fun x hx v hv => ?_, h.low, h.hides.put (fun _ hr' hw => ?_) _⟩
  · rw [Regs.put_of_ne]
    · exact h.agree x hx v hv
    · rintro ⟨⟩
      exact Nat.lt_asymm hr (h.low x (by rw [hv]; exact some_ne_none v))
  · cases hr'
    cases hw
    exact Nat.lt_irrefl _ hr

theorem operand (h : Matches w ι ρ τ) {r : Reg} (hx : Carried id ι (ρ x) (some z))
    (hr : τ r = some z) (o : Operand) :
    Carried id ι (ρ.value o) (τ.value (o.replace x (.reg r))) := by
  unfold Operand.replace
  split
  · next ho =>
    rw [show o = .reg x by simpa [Operand.isReg] using ho, Regs.value_reg, Regs.value_reg, hr]
    exact hx
  · exact Inlining.value_same h.agree o

end Matches

/-- The registers that have a value at the end of a block, however it was reached. -/
def Proc.Sure (p : Proc) (l : BlockId) (r : Reg) : Prop :=
  r ∈ p.params ∨ ∃ k c, (k = p.entry ∨ k = l) ∧ p.code k = some c ∧ r ∈ c.body.filterMap Instruction.dest?

/-- Frames in the same block. The cell holds the value of the register `d`. -/
inductive Tracks (d : Option Reg) (w : Reg) (last : BlockId → List Instruction) (p p' : Proc) : Link
  | intro {ι l here r ρ r' τ y} {c c' : Code} (hc : p.code l = some c) (hc' : p'.code l = some c')
      (hr : r <:+ c.body) (ht : Laced d w (last l) here r r') (hy : y.isNone = here)
      (hx : ∀ x ∈ d, Carried id ι (ρ x) y) (hm : Matches w ι ρ τ)
      (hs : ∀ r', p.Sure l r' → ρ r' = none → r' ∈ r.filterMap Instruction.dest?) :
    Tracks d w last p p' ι ⟨l, r, c.exit, ρ⟩ ⟨l, r', c'.exit, τ⟩ y

/-- Functions of which the second has the cell `w` more. It does something `first` and something
`last` in a block, and all that a phi of the first one reads is there when a block is left. -/
structure Lacing (d : Option Reg) (w : Reg) (first : BlockId → Code → List Instruction)
    (last : BlockId → List Instruction) (p p' : Proc) : Prop where
  params : p'.params = p.params
  varargs : p'.varargs = p.varargs
  entry : p'.entry = p.entry
  root : ∀ k, ¬ p.Edge k p.entry
  low : ∀ r, r ∈ p.params ∨ p.Defines r → r.index.toNat < w.index.toNat
  param : ∀ x ∈ d, x ∉ p.params
  code : ∀ {l c}, p.code l = some c → ∃ c' body, p'.code l = some c' ∧ c'.body = first l c ++ body ∧
    Laced d w (last l) (decide (l = p.entry)) c.body body ∧
    c'.phis.map Phi.dest ⊆ c.phis.map Phi.dest ∧ (c.phis = [] → first l c = [])
  leave : ∀ {ι l c c' ρ τ z}, p.code l = some c → p'.code l = some c' → Matches w ι ρ τ →
    (∀ x ∈ d, Carried id ι (ρ x) (some z)) → (∀ r, p.Sure l r → ρ r ≠ none) → ∃ h τ₁ z₁,
      c'.exit = c.exit.mapOperands h ∧ (∀ o, Carried id ι (ρ.value o) (τ₁.value (h o))) ∧
      Silents (some w) (⟨l, last l, c'.exit, τ⟩, some z) (⟨l, [], c'.exit, τ₁⟩, some z₁) ∧
      ∀ {l₁ c₁ c₁' vs body}, p.code l₁ = some c₁ → p'.code l₁ = some c₁' →
        incomings ρ l c₁.phis = some vs → ∃ us τ₂ z₂, incomings τ₁ l c₁'.phis = some us ∧
          Silents (some w) (⟨l₁, first l₁ c₁ ++ body, c₁'.exit,
            Regs.bind (c₁'.phis.map Phi.dest) us τ₁⟩, some z₁) (⟨l₁, body, c₁'.exit, τ₂⟩, some z₂) ∧
          Matches w ι (Regs.bind (c₁.phis.map Phi.dest) vs ρ) τ₂ ∧
          ∀ x ∈ d, Carried id ι (Regs.bind (c₁.phis.map Phi.dest) vs ρ x) (some z₂)

namespace Lacing

variable {first : BlockId → Code → List Instruction} {last : BlockId → List Instruction}
  {a b : Frame}

theorem sure_of_mem (hL : Lacing d w first last p p') {k : BlockId} {c : Code} (hk : k = p.entry ∨ k = l)
    (hc : p.code k = some c) {i : Instruction} (hi : i ∈ c.body ++ last k) (hx : i.dest? = some x) :
    p'.Sure l x := by
  obtain ⟨c', body, hc', hbody, ht, -⟩ := hL.code hc
  obtain ⟨i', hi', he⟩ := ht.mem_dests hi
  refine .inr ⟨k, c', hL.entry ▸ hk, hc', mem_filterMap.mpr ⟨i', ?_, he.trans hx⟩⟩
  rw [hbody]
  exact mem_append_right _ hi'

theorem sure (hL : Lacing d w first last p p') (h : p.Sure l x) : p'.Sure l x := by
  rcases h with h | ⟨k, c, hk, hc, h⟩
  · exact .inl (hL.params ▸ h)
  · obtain ⟨i, hi, hx⟩ := mem_filterMap.mp h
    exact hL.sure_of_mem hk hc (mem_append_left _ hi) hx

theorem hides (h : Tracks d w last p p' ι a b y) : b.regs.Hides (some w) := by
  cases h with
  | intro _ _ _ _ _ _ hm => exact hm.hides

theorem begins (hL : Lacing d w first last p p') {vs us : List Value} (hs : p.start vs = some a)
    (ha : p.accepts vs.length) (hall : List.Forall₂ (Moved id ι) vs us) :
    ∃ b, p'.start us = some b ∧ Tracks d w last p p' ι a b none := by
  obtain ⟨c, hc, hphis, rfl⟩ := Proc.start_eq_some.mp hs
  obtain ⟨c', body, hc', hbody, ht, hphis', hfirst⟩ := hL.code hc
  rw [hphis, map_nil, subset_nil, map_eq_nil_iff] at hphis'
  rw [hfirst hphis, nil_append] at hbody
  rw [decide_eq_true rfl, ← hbody] at ht
  refine ⟨_, Proc.start_eq_some.mpr ⟨c', hL.entry ▸ hc', hphis', rfl⟩, ?_⟩
  rw [hL.params, hL.entry]
  have hempty : Matches w ι (fun _ => none) fun _ => none :=
    ⟨fun _ _ _ h => (some_ne_none _ h.symm).elim, fun _ h => absurd rfl h, fun _ _ => rfl⟩
  refine .intro hc hc' (suffix_refl _) ht rfl (fun x hx v hv => ?_)
    (hempty.bind (fun r hr => hL.low r (.inl hr)) hall) fun r hr hnone => ?_
  · rw [Regs.bind_of_not_mem (hL.param x hx)] at hv
    cases hv
  · rcases hr with hr | ⟨k, c₁, hk, hc₁, hr⟩
    · refine absurd hnone (Regs.bind_ne_none (.inl ⟨hr, ?_⟩))
      rcases ha with ha | ha
      · exact Nat.le_of_eq ha.symm
      · exact Nat.le_of_lt ha.2
    · obtain rfl := hk.elim id id
      cases hc.symm.trans hc₁
      exact hr

theorem act (hL : Lacing d w first last p p') {i : Instruction} {r : List Instruction} {t : Terminator}
    (h : Tracks d w last p p' ι ⟨l, i :: r, t, ρ⟩ b y) : ∃ h r' τ y',
      Silents (some w) (b, y) (⟨b.label, i.mapOperands h :: r', b.exit, τ⟩, y') ∧
      (∀ d ∈ i.dest?, some w ≠ some d) ∧
      (∀ o ∈ i.operands, Carried id ι (ρ.value o) (τ.value (h o))) ∧
      ∀ {κ v v'}, ι.Extends κ → MovedOption id κ v v' →
        (Tracks d w last p p').After (some w) κ ⟨l, r, t, ρ.put i.dest? v⟩
          ⟨b.label, r', b.exit, τ.put i.dest? v'⟩ y' := by
  cases h with
  | @intro _ _ here _ _ r' τ _ c c' hc hc' hr ht hy hx hm hs =>
    have hdest : ∀ e ∈ i.dest?, e.index.toNat < w.index.toNat := fun e he =>
      hL.low e (.inr ⟨l, c, hc, mem_append_right _ (mem_filterMap.mpr ⟨i, hr.subset mem_cons_self, he⟩)⟩)
    have hne : ∀ e ∈ i.dest?, some w ≠ some e := by
      rintro e he ⟨⟩
      exact Nat.lt_irrefl _ (hdest w he)
    have hsure : ∀ v r', p.Sure l r' → ρ.put i.dest? v r' = none → r' ∈ r.filterMap Instruction.dest? := by
      intro v r' hr' hnone
      by_cases he : i.dest? = some r'
      · exact absurd hnone (Regs.put_ne_none (.inl he) v)
      · rw [Regs.put_of_ne he] at hnone
        obtain ⟨i', hi', he'⟩ := mem_filterMap.mp (hs r' hr' hnone)
        exact mem_filterMap.mpr ⟨i', (mem_cons.mp hi').resolve_left fun h => he (h ▸ he'), he'⟩
    have next : ∀ {κ v here r' τ y}, Laced d w (last l) here r r' → y.isNone = here →
        (∀ x ∈ d, Carried id κ (ρ.put i.dest? v x) y) → Matches w κ (ρ.put i.dest? v) τ →
        Tracks d w last p p' κ ⟨l, r, c.exit, ρ.put i.dest? v⟩ ⟨l, r', c'.exit, τ⟩ y :=
      fun ht hy hx hm => .intro hc hc' ((suffix_cons i r).trans hr) ht hy hx hm (hsure _)
    have other : ∀ {κ : Placing} {y}, (∀ x ∈ d, Carried id ι (ρ x) y) → (∀ x ∈ d, i.dest? ≠ some x) →
        ι.Extends κ → ∀ v, ∀ x ∈ d, Carried id κ (ρ.put i.dest? v x) y := by
      intro κ y hx hi he v x hd
      rw [Regs.put_of_ne (hi x hd)]
      exact (hx x hd).extend he
    -- Only the allocation of the cell can come before the instruction.
    generalize hir : i :: r = ir at ht
    induction ht generalizing τ y with
    | done => cases hir
    | keep hi h =>
      cases hir
      refine ⟨id, _, τ, y, ?_, hne, fun o _ => Inlining.value_same hm.agree o, fun he hmo =>
        ⟨_, .refl, next h hy (other hx hi he _) ((hm.extend he).put hdest hmo)⟩⟩
      rw [Instruction.mapOperands_id]
    | slot ty h ih =>
      cases isNone_iff_eq_none.mp hy
      have hzero : ∀ x ∈ d, Carried id ι (ρ x) (some (.ofConst ty.zero)) := by
        intro x hd v hv
        obtain ⟨v', hv', -⟩ := hx x hd v hv
        cases hv'
      obtain ⟨h, r', τ', y', hsil, hrest⟩ :=
        ih hm (y := some (.ofConst ty.zero)) rfl hzero hir
      exact ⟨h, r', τ', y', .head (.alloca rfl) hsil, hrest⟩
    | @reload x u _ _ _ ty hd hi hu h =>
      cases hir
      obtain ⟨z, rfl⟩ := isSome_iff_exists.mp (isNone_eq_false_iff.mp hy)
      have hm' := hm.load hu z
      refine ⟨fun o => o.replace x (.reg u), _, _, _, .single (.load rfl ?_), hne, fun o _ =>
        hm'.operand (hx x hd) (Regs.put_self ..) o, fun he hmo => ⟨_, .refl, next h rfl
          (other hx (fun _ hd' => ?_) he _) ((hm'.extend he).put hdest hmo)⟩⟩
      · rintro ⟨⟩
        exact Nat.lt_irrefl _ hu
      · cases hd.symm.trans hd'
        exact hi
    | @define x _ _ _ hd hi h =>
      cases hir
      obtain ⟨z, rfl⟩ := isSome_iff_exists.mp (isNone_eq_false_iff.mp hy)
      refine ⟨id, .store (.reg w) (.reg x) :: _, τ, some z, ?_, hne, fun o _ =>
        Inlining.value_same hm.agree o, fun {κ v v'} he hmo =>
        ⟨_, .single (.store rfl (v := v'.getD .undefined) ?_), next h rfl (fun x' hd' => ?_)
          ((hm.extend he).put hdest hmo)⟩⟩
      · rw [Instruction.mapOperands_id]
      · rw [hi]
        exact Regs.put_self ..
      · cases hd.symm.trans hd'
        rw [hi, Regs.put_self]
        rintro _ ⟨⟩
        exact ⟨_, rfl, hmo.getD⟩

/-- At the end of a block all that is left to do is about the cell. -/
theorem settle {t : Terminator} (h : Tracks d w last p p' ι ⟨l, [], t, ρ⟩ b y) :
    ∃ c c' τ z, p.code l = some c ∧ p'.code l = some c' ∧ t = c.exit ∧
      Silents (some w) (b, y) (⟨l, last l, c'.exit, τ⟩, some z) ∧
      (∀ x ∈ d, Carried id ι (ρ x) (some z)) ∧ Matches w ι ρ τ ∧ ∀ r, p.Sure l r → ρ r ≠ none := by
  cases h with
  | @intro _ _ here _ _ r' τ _ c c' hc hc' hr ht hy hx hm hs =>
    have hsure : ∀ r, p.Sure l r → ρ r ≠ none := fun r hr hnone => by cases hs r hr hnone
    cases ht with
    | done =>
      obtain ⟨z, rfl⟩ := isSome_iff_exists.mp (isNone_eq_false_iff.mp hy)
      exact ⟨c, c', τ, z, hc, hc', rfl, .refl, hx, hm, hsure⟩
    | slot ty h =>
      cases h
      cases isNone_iff_eq_none.mp hy
      refine ⟨c, c', τ, _, hc, hc', rfl, .single (.alloca rfl), fun x hd v hv => ?_, hm, hsure⟩
      obtain ⟨v', hv', -⟩ := hx x hd v hv
      cases hv'

theorem follows (hL : Lacing d w first last p p') :
    (Tracks d w last p p').Follows (some w) p p' where
  params := hL.params
  varargs := hL.varargs
  hides := hides
  start := hL.begins
  act := hL.act
  leave := by
    intro ι l t ρ b y ht
    obtain ⟨c, c', τ, z, hc, hc', rfl, hsil, hx, hm, hs⟩ := settle ht
    obtain ⟨h, τ₁, z₁, he, hops, hsil₁, hnext⟩ := hL.leave hc hc' hm hx hs
    rw [he] at hsil hsil₁
    refine ⟨h, τ₁, some z₁, hsil.trans hsil₁, fun o _ => hops o, fun {l₁ c₁ vs} hl₁ hc₁ hvs => ?_⟩
    obtain ⟨c₁', body, hc₁', hbody, hlaced, hdests, -⟩ := hL.code hc₁
    have hne : l₁ ≠ p.entry := by
      rintro rfl
      exact hL.root l ⟨c, hc, hl₁⟩
    rw [decide_eq_false hne] at hlaced
    obtain ⟨us, τ₂, z₂, hus, hsil₂, hm₂, hx₂⟩ := hnext hc₁ hc₁' hvs
    rw [← hbody] at hsil₂
    refine ⟨c₁', us, hc₁', hus, fun r hr hw => ?_, _, hsil₂, .intro hc₁ hc₁' (suffix_refl _) hlaced rfl
      hx₂ hm₂ fun r hr hnone => ?_⟩
    · cases hw
      exact Nat.lt_irrefl _ (hL.low w (.inr ⟨l₁, c₁, hc₁, mem_append_left _ (hdests hr)⟩))
    · have hold : ¬ p.Sure l r := fun hr => Regs.bind_ne_none (.inr (hs r hr)) hnone
      rcases hr with hr | ⟨k, c₂, hk, hc₂, hr⟩
      · exact absurd (.inl hr) hold
      · rcases hk with rfl | rfl
        · exact absurd (.inr ⟨_, c₂, .inl rfl, hc₂, hr⟩) hold
        · cases hc₁.symm.trans hc₂
          exact hr

end Lacing

end SiteFusion
