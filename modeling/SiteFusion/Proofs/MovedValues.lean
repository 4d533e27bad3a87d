import SiteFusion.Proofs.Behaviour

namespace SiteFusion

open List Option

def Value.isData : Value → Bool
  | .ptr _ | .func _ => false
  | _ => true

abbrev Placing := Nat → Option Nat

namespace Placing

def Extends (ι κ : Placing) : Prop := ∀ c d, ι c = some d → κ c = some d

theorem Extends.refl (ι : Placing) : ι.Extends ι := fun _ _ h => h

theorem Extends.trans {ι κ μ : Placing} (h : ι.Extends κ) (h' : κ.Extends μ) : ι.Extends μ :=
  fun c d hc => h' c d (h c d hc)

def Ordered (ι : Placing) : Prop :=
  ∀ c d c' d', ι c = some c' → ι d = some d' → c < d → c' < d'

variable {ι : Placing} {c d c' d' : Nat}

theorem Ordered.lt_iff (h : ι.Ordered) (hc : ι c = some c') (hd : ι d = some d') :
    c < d ↔ c' < d' := by
  refine ⟨h c d c' d' hc hd, fun hlt => ?_⟩
  rcases Nat.lt_trichotomy c d with hcd | rfl | hcd
  · exact hcd
  · rw [hc] at hd
    cases hd
    omega
  · have := h d c d' c' hd hc hcd
    omega

theorem Ordered.eq_iff (h : ι.Ordered) (hc : ι c = some c') (hd : ι d = some d') :
    c = d ↔ c' = d' := by
  have h₁ := h.lt_iff hc hd
  have h₂ := h.lt_iff hd hc
  omega

end Placing

/-- The same value, as it is seen in the other memory. -/
inductive Moved (φ : FuncId → FuncId) (ι : Placing) : Value → Value → Prop
  | ptr {c d : Nat} (h : ι c = some d) : Moved φ ι (.ptr c) (.ptr d)
  | func (f : FuncId) : Moved φ ι (.func f) (.func (φ f))
  | data {v : Value} (h : v.isData = true) : Moved φ ι v v

/-- Both have no value, or both have the same one. -/
inductive MovedOption (φ : FuncId → FuncId) (ι : Placing) : Option Value → Option Value → Prop
  | none : MovedOption φ ι none none
  | some {v w : Value} (h : Moved φ ι v w) : MovedOption φ ι (some v) (some w)

variable {φ : FuncId → FuncId} {ι κ : Placing} {v w : Value}

namespace Moved

theorem extend (h : Moved φ ι v w) (he : ι.Extends κ) : Moved φ κ v w := by
  cases h with
  | ptr h => exact .ptr (he _ _ h)
  | func f => exact .func f
  | data h => exact .data h

theorem eq_of_ne_ptr (h : Moved id ι v w) (hv : ∀ c, v ≠ .ptr c) : w = v := by
  cases h with
  | ptr _ => exact absurd rfl (hv _)
  | func _ => rfl
  | data _ => rfl

theorem forall₂_of_no_ptr {vs : List Value} (h : ∀ c, .ptr c ∉ vs) :
    List.Forall₂ (Moved id ι) vs vs := by
  refine List.forall₂_same.mpr fun v hv => ?_
  cases v with
  | ptr c => exact absurd hv (h c)
  | func f => exact .func f
  | _ => exact .data rfl

theorem ofConst (c : Const) : Moved φ ι (.ofConst c) (.ofConst c) :=
  .data (by cases c <;> rfl)

theorem integer?_eq (h : Moved φ ι v w) : w.integer? = v.integer? := by cases h <;> rfl

theorem truth?_eq (h : Moved φ ι v w) : w.truth? = v.truth? := by cases h <;> rfl

end Moved

namespace MovedOption

variable {x y : Option Value}

theorem eq_of_ne_ptr (h : MovedOption id ι x y) (hx : ∀ c, x ≠ Option.some (.ptr c)) : y = x := by
  cases h with
  | none => rfl
  | some h => rw [h.eq_of_ne_ptr fun c hc => hx c (congrArg Option.some hc)]

theorem getD (h : MovedOption φ ι x y) : Moved φ ι (x.getD .undefined) (y.getD .undefined) := by
  cases h with
  | none => exact .data rfl
  | some h => exact h

end MovedOption

section Operators

variable {l r l' r' : Value}

theorem binary_moved (op : BinaryOp) (hl : Moved φ ι l l') (hr : Moved φ ι r r') :
    (Machine.binary op l' r').toOption = (Machine.binary op l r).toOption := by
  have hnone : ∀ x y : Value, x.isData = false ∨ y.isData = false →
      (Machine.binary op x y).toOption = none := by
    intro x y h
    cases x <;> cases y <;> simp [Value.isData] at h <;> rfl
  cases hl with
  | ptr h => rw [hnone _ _ (.inl rfl), hnone _ _ (.inl rfl)]
  | func f => rw [hnone _ _ (.inl rfl), hnone _ _ (.inl rfl)]
  | data h =>
    cases hr with
    | ptr h => rw [hnone _ _ (.inr rfl), hnone _ _ (.inr rfl)]
    | func f => rw [hnone _ _ (.inr rfl), hnone _ _ (.inr rfl)]
    | data h => rfl

theorem isData_ofWidth (v : Value) (i : Int64) : (v.ofWidth i).isData = true := by cases v <;> rfl

theorem isData_of_binary {op : BinaryOp} (h : (Machine.binary op l r).toOption = some v) :
    v.isData = true := by
  unfold Machine.binary at h
  split at h
  · cases op <;> cases h <;> rfl
  · split at h
    · next i j _ _ =>
      cases hb : Machine.binaryInteger op i j with
      | error e => rw [hb] at h; cases h
      | ok k =>
        rw [hb] at h
        cases h
        exact isData_ofWidth _ k
    · cases h

theorem unary_moved (op : UnaryOp) (hl : Moved φ ι l l') :
    (Machine.unary op l').toOption = (Machine.unary op l).toOption := by
  cases hl with
  | ptr h => cases op <;> rfl
  | func f => cases op <;> rfl
  | data h => rfl

theorem isData_of_unary {op : UnaryOp} (h : (Machine.unary op l).toOption = some v) :
    v.isData = true := by
  cases op <;> cases l <;> cases h <;> rfl

/-- Two functions are compared by their numbers. -/
def bothFunctions : Value → Value → Bool
  | .func _, .func _ => true
  | _, _ => false

theorem compare_moved (hι : ι.Ordered) (hφ : φ = id ∨ bothFunctions l r = false) (op : CompareOp)
    (hl : Moved φ ι l l') (hr : Moved φ ι r r') :
    (Machine.compare op l' r').toOption = (Machine.compare op l r).toOption := by
  cases hl with
  | ptr hc =>
    cases hr with
    | ptr hd => simp only [Machine.compare, Machine.orderNats, hι.lt_iff hc hd, hι.eq_iff hc hd]
    | func f => rfl
    | data h => cases r <;> first | rfl | cases h
  | func f =>
    cases hr with
    | ptr hd => rfl
    | func g =>
      rcases hφ with rfl | hφ
      · rfl
      · cases hφ
    | data h => cases r <;> first | rfl | cases h
  | data h =>
    cases hr with
    | ptr hd => cases l <;> first | rfl | cases h
    | func f => cases l <;> first | rfl | cases h
    | data h => rfl

end Operators

abbrev Pairing := Placing → Array Value → Array Value → Prop

/-- Reading and writing shows no difference between memories that are paired. -/
structure Pairing.Faithful (φ : FuncId → FuncId) (M : Pairing) : Prop where
  ordered : ∀ {ι small large}, M ι small large → ι.Ordered
  bound : ∀ {ι small large}, M ι small large → ∀ {c d}, ι c = some d → c < small.size →
    d < large.size
  loaded : ∀ {ι small large}, M ι small large → ∀ {c d}, ι c = some d →
    Moved φ ι (Machine.loaded small c) (Machine.loaded large d)
  set : ∀ {ι small large}, M ι small large → ∀ {c d v w}, ι c = some d → Moved φ ι v w →
    M ι (small.setIfInBounds c v) (large.setIfInBounds d w)
  push : ∀ {ι small large}, M ι small large → ∀ c : Const, ∃ κ : Placing, ι.Extends κ ∧
    κ small.size = some large.size ∧ M κ (small.push (.ofConst c)) (large.push (.ofConst c))

/-- Memories that are paired in such a way that some cells have known places. -/
def Pairing.onto (M : Pairing) (ι₀ : Placing) : Pairing := fun ι small large =>
  M ι small large ∧ ι₀.Extends ι

theorem Pairing.Faithful.onto {M : Pairing} (h : M.Faithful φ) (ι₀ : Placing) :
    (M.onto ι₀).Faithful φ where
  ordered hm := h.ordered hm.1
  bound hm := h.bound hm.1
  loaded hm := h.loaded hm.1
  set hm _ _ _ _ hc hv := ⟨h.set hm.1 hc hv, hm.2⟩
  push hm c := by
    obtain ⟨κ, he, hs, hm'⟩ := h.push hm.1 c
    exact ⟨κ, he, hs, hm', hm.2.trans he⟩

/-- A value with another name for a function. -/
def Value.redirect (φ : FuncId → FuncId) : Value → Value
  | .func f => .func (φ f)
  | v => v

theorem Value.redirect_id (v : Value) : v.redirect id = v := by cases v <;> rfl

theorem moved_redirect (v : Value) : Moved φ some v (v.redirect φ) := by
  cases v with
  | ptr c => exact .ptr rfl
  | func f => exact .func f
  | _ => exact .data rfl

theorem Moved.eq_redirect (h : Moved φ some v w) : w = v.redirect φ := by
  cases h with
  | ptr h => cases h; rfl
  | func f => rfl
  | data h => cases v <;> first | rfl | cases h

theorem MovedOption.eq_redirect {x y : Option Value} (h : MovedOption φ Option.some x y) :
    y = x.map (Value.redirect φ) := by
  cases h with
  | none => rfl
  | some h => rw [h.eq_redirect]; rfl

theorem Value.redirect_id_eq : Value.redirect id = id := funext Value.redirect_id

def Pairing.exact (φ : FuncId → FuncId) : Pairing := fun ι small large =>
  ι = some ∧ large = small.map (Value.redirect φ)

theorem Pairing.faithful_exact : (Pairing.exact φ).Faithful φ where
  ordered := by
    rintro ι small large ⟨rfl, -⟩ c d c' d' hc hd hlt
    cases hc
    cases hd
    exact hlt
  bound := by
    rintro ι small large ⟨rfl, rfl⟩ c d hc hlt
    cases hc
    rwa [Array.size_map]
  loaded := by
    rintro ι small large ⟨rfl, rfl⟩ c d hc
    cases hc
    rw [Machine.loaded, Machine.loaded, Array.getElem?_map]
    cases small[c]? with
    | none => exact .data rfl
    | some v => exact moved_redirect v
  set := by
    rintro ι small large ⟨rfl, rfl⟩ c d v w hc hm
    cases hc
    exact ⟨rfl, by rw [hm.eq_redirect, Array.map_setIfInBounds]⟩
  push := by
    rintro ι small large ⟨rfl, rfl⟩ c
    refine ⟨some, .refl _, by rw [Array.size_map], rfl, ?_⟩
    rw [Array.map_push, ← (Moved.ofConst c).eq_redirect]

/-- Some cells may be left out. -/
structure Pairing.Partial (φ : FuncId → FuncId) (ι : Placing) (small large : Array Value) :
    Prop where
  ordered : ι.Ordered
  value : ∀ c d, ι c = some d → ∃ v w, small[c]? = some v ∧ large[d]? = some w ∧ Moved φ ι v w

namespace Pairing.Partial

variable {small large : Array Value}

theorem lt_small (h : Partial φ ι small large) {c d : Nat} (hc : ι c = some d) :
    c < small.size := by
  obtain ⟨v, w, hv, -, -⟩ := h.value c d hc
  exact (Array.getElem?_eq_some_iff.mp hv).1

theorem lt_large (h : Partial φ ι small large) {c d : Nat} (hc : ι c = some d) :
    d < large.size := by
  obtain ⟨v, w, -, hw, -⟩ := h.value c d hc
  exact (Array.getElem?_eq_some_iff.mp hw).1

theorem pushLeft (h : Partial φ ι small large) (v : Value) : Partial φ ι (small.push v) large := by
  refine ⟨h.ordered, fun c d hc => ?_⟩
  obtain ⟨v', w, hv, hw, hm⟩ := h.value c d hc
  have := h.lt_small hc
  exact ⟨v', w, by rw [Array.getElem?_push, if_neg (by omega), hv], hw, hm⟩

theorem push (h : Partial φ ι small large) (hm : Moved φ ι v w) :
    ∃ κ : Placing, ι.Extends κ ∧ κ small.size = some large.size ∧
      Partial φ κ (small.push v) (large.push w) ∧
      ∀ c d, κ c = some d → ι c = some d ∨ c = small.size ∧ d = large.size := by
  let κ : Placing := fun c => if c = small.size then some large.size else ι c
  have hold : ∀ {c}, c ≠ small.size → κ c = ι c := fun hc => if_neg hc
  have hext : ι.Extends κ := by
    intro c d hc
    have := h.lt_small hc
    rw [hold (by omega), hc]
  refine ⟨κ, hext, if_pos rfl, ⟨?_, ?_⟩, ?_⟩
  · intro c d c' d' hc hd hlt
    by_cases hds : d = small.size
    · rw [hold (by omega)] at hc
      have hd' : large.size = d' := by simpa [κ, hds] using hd
      have := h.lt_large hc
      omega
    · rw [hold hds] at hd
      have := h.lt_small hd
      rw [hold (by omega)] at hc
      exact h.ordered c d c' d' hc hd hlt
  · intro c d hc
    by_cases hs : c = small.size
    · have hd : large.size = d := by simpa [κ, hs] using hc
      exact ⟨v, w, by simp [hs], by simp [← hd], hm.extend hext⟩
    · rw [hold hs] at hc
      obtain ⟨v', w', hv, hw, hm'⟩ := h.value c d hc
      have h₁ := h.lt_small hc
      have h₂ := h.lt_large hc
      refine ⟨v', w', ?_, ?_, hm'.extend hext⟩
      · rw [Array.getElem?_push, if_neg (by omega), hv]
      · rw [Array.getElem?_push, if_neg (by omega), hw]
  · intro c d hc
    by_cases hs : c = small.size
    · have hd : large.size = d := by simpa [κ, hs] using hc
      exact .inr ⟨hs, hd.symm⟩
    · exact .inl (hold hs ▸ hc)

theorem set (h : Partial φ ι small large) {c d : Nat} (hc : ι c = some d) (hm : Moved φ ι v w) :
    Partial φ ι (small.setIfInBounds c v) (large.setIfInBounds d w) := by
  refine ⟨h.ordered, fun c' d' hc' => ?_⟩
  obtain ⟨v', w', hv, hw, hm'⟩ := h.value c' d' hc'
  by_cases he : c = c'
  · have hd : d = d' := (h.ordered.eq_iff hc hc').mp he
    exact ⟨v, w, by simp [← he, h.lt_small hc], by simp [← hd, h.lt_large hc], hm⟩
  · have hd : d ≠ d' := fun hd => he ((h.ordered.eq_iff hc hc').mpr hd)
    exact ⟨v', w', by rw [Array.getElem?_setIfInBounds_ne he, hv],
      by rw [Array.getElem?_setIfInBounds_ne hd, hw], hm'⟩

theorem faithful : Pairing.Faithful φ (Partial φ) where
  ordered h := h.ordered
  bound h _ _ hc _ := h.lt_large hc
  loaded h c d hc := by
    obtain ⟨v, w, hv, hw, hm⟩ := h.value c d hc
    simpa [Machine.loaded, hv, hw] using hm
  set h _ _ _ _ hc hm := h.set hc hm
  push h c := by
    obtain ⟨κ, he, hs, hp, -⟩ := h.push (.ofConst c)
    exact ⟨κ, he, hs, hp⟩

end Pairing.Partial

/-- Let calls and references go to other functions. -/
def Instruction.redirect (φ : FuncId → FuncId) : Instruction → Instruction
  | .call d c args => .call d (φ c) args
  | .functionRef d c => .functionRef d (φ c)
  | i => i

theorem Instruction.redirect_id (i : Instruction) : i.redirect id = i := by cases i <;> rfl

/-- Outcomes that are the same, for memories that are paired. -/
inductive Outcome.Moved (φ : FuncId → FuncId) (M : Pairing) (ι : Placing) : Outcome → Outcome → Prop
  | plain {κ : Placing} {v w : Option Value} {small large : Array Value} (he : ι.Extends κ)
      (hv : MovedOption φ κ v w) (hm : M κ small large) :
      Outcome.Moved φ M ι (.plain v small) (.plain w large)
  | call (f : FuncId) {as bs : List Value} (h : List.Forall₂ (SiteFusion.Moved φ ι) as bs) :
      Outcome.Moved φ M ι (.call f as) (.call (φ f) bs)

/-- What is computed here is computed there as well. -/
def Carried (φ : FuncId → FuncId) (ι : Placing) (x y : Option Value) : Prop :=
  ∀ v, x = some v → ∃ w, y = some w ∧ Moved φ ι v w

def Outcome.Carried (φ : FuncId → FuncId) (M : Pairing) (ι : Placing) (x y : Option Outcome) :
    Prop :=
  ∀ o, x = some o → ∃ o', y = some o' ∧ Outcome.Moved φ M ι o o'

section Act

variable {M : Pairing} {small large : Array Value} {ρ σ : Regs} {h : Operand → Operand}

theorem Carried.mapM {os : List Operand} (hv : ∀ o ∈ os, Carried φ ι (ρ.value o) (σ.value (h o)))
    {vs : List Value} (hvs : os.mapM ρ.value = some vs) :
    ∃ ws, (os.map h).mapM σ.value = some ws ∧ List.Forall₂ (Moved φ ι) vs ws := by
  induction os generalizing vs with
  | nil =>
    cases hvs
    exact ⟨[], rfl, .nil⟩
  | cons o os ih =>
    rw [mapM_cons] at hvs
    obtain ⟨v, ho, hvs⟩ := bind_eq_some_iff.mp hvs
    obtain ⟨vs', hvs', hvs⟩ := bind_eq_some_iff.mp hvs
    cases hvs
    obtain ⟨w, hw, hm⟩ := hv o mem_cons_self v ho
    obtain ⟨ws, hws, hall⟩ := ih (fun o ho => hv o (mem_cons_of_mem _ ho)) hvs'
    exact ⟨w :: ws, by simp [hw, hws], .cons hm hall⟩

namespace Outcome.Carried

variable {x y : Option Value}

theorem bind {f g : Value → Option Outcome} (hx : SiteFusion.Carried φ ι x y)
    (hf : ∀ v w, SiteFusion.Moved φ ι v w → Outcome.Carried φ M ι (f v) (g w)) :
    Outcome.Carried φ M ι (x.bind f) (y.bind g) := by
  intro o ho
  obtain ⟨v, hv, ho⟩ := bind_eq_some_iff.mp ho
  obtain ⟨w, hw, hm⟩ := hx v hv
  obtain ⟨o', ho', hmo⟩ := hf v w hm o ho
  exact ⟨o', by rw [hw]; exact ho', hmo⟩

theorem value (hm : M ι small large) {v w : Option Value} (h : MovedOption φ ι v w) :
    Outcome.Carried φ M ι (some (.plain v small)) (some (.plain w large)) := by
  rintro o ⟨⟩
  exact ⟨_, rfl, .plain (.refl ι) h hm⟩

theorem data (hm : M ι small large) (hxy : y = x) (hx : ∀ v, x = some v → v.isData = true) :
    Outcome.Carried φ M ι (x.bind fun v => some (.plain (some v) small))
      (y.bind fun v => some (.plain (some v) large)) := by
  subst hxy
  refine bind (fun v hv => ⟨v, hv, .data (hx v hv)⟩) fun v w h => value hm (.some h)

theorem call (f : FuncId) {os : List Operand} {h : Operand → Operand}
    (hv : ∀ o ∈ os, SiteFusion.Carried φ ι (ρ.value o) (σ.value (h o))) :
    Outcome.Carried φ M ι ((os.mapM ρ.value).bind fun vs => some (.call f vs))
      (((os.map h).mapM σ.value).bind fun vs => some (.call (φ f) vs)) := by
  intro o ho
  obtain ⟨vs, hvs, ho⟩ := bind_eq_some_iff.mp ho
  cases ho
  obtain ⟨ws, hws, hall⟩ := SiteFusion.Carried.mapM hv hvs
  exact ⟨_, by rw [hws]; rfl, .call f hall⟩

theorem cell (hM : M.Faithful φ) (hm : M ι small large) (h : SiteFusion.Moved φ ι v w)
    {f g : Nat → Option Outcome}
    (hf : ∀ c d, ι c = some d → Outcome.Carried φ M ι (f c) (g d)) :
    Outcome.Carried φ M ι ((Machine.cell small v).toOption.bind f)
      ((Machine.cell large w).toOption.bind g) := by
  cases h with
  | @ptr c d hc =>
    intro o ho
    by_cases hlt : c < small.size
    · have hd := hM.bound hm hc hlt
      have ho : f c = some o := by simpa [Machine.cell, hlt, Except.toOption] using ho
      obtain ⟨o', ho', hmo⟩ := hf c d hc o ho
      exact ⟨o', by simpa [Machine.cell, hd, Except.toOption] using ho', hmo⟩
    · simp [Machine.cell, hlt, Except.toOption] at ho
  | func f =>
    rintro o ⟨⟩
  | data h =>
    intro o ho
    cases v <;> first | cases ho | cases h

end Outcome.Carried

theorem act_carried {cells cells' : Table GlobalId Nat} (hM : M.Faithful φ) (hm : M ι small large)
    {i : Instruction}
    (hcells : ∀ g ∈ i.global?, ∀ c, cells.get? g = some c → ∃ d, cells'.get? g = some d ∧
      ι c = some d) (hφ : φ = id ∨ ∀ d op l r, i = .compare d op l r → ∀ v w, ρ.value l = some v →
      ρ.value r = some w → bothFunctions v w = false)
    (hv : ∀ o ∈ i.operands, Carried φ ι (ρ.value o) (σ.value (h o))) :
    Outcome.Carried φ M ι (act cells ρ small i)
      (act cells' σ large ((i.mapOperands h).redirect φ)) := by
  cases i with
  | const d c => exact .value hm (.some (.ofConst c))
  | copy d s => exact .bind (hv s (by simp [Instruction.operands])) fun v w h => .value hm (.some h)
  | binary d op l r =>
    refine .bind (hv l (by simp [Instruction.operands])) fun v v' hl => ?_
    refine .bind (hv r (by simp [Instruction.operands])) fun w w' hr => ?_
    exact .data hm (binary_moved op hl hr) fun _ => isData_of_binary
  | unary d op o =>
    refine .bind (hv o (by simp [Instruction.operands])) fun v v' hl => ?_
    exact .data hm (unary_moved op hl) fun _ => isData_of_unary
  | compare d op l r =>
    intro o ho
    simp only [act, bind_eq_bind, bind_eq_some_iff] at ho
    obtain ⟨v, hvl, w, hvr, b, hb, ho⟩ := ho
    cases ho
    obtain ⟨v', hvl', hl⟩ := hv l (by simp [Instruction.operands]) v hvl
    obtain ⟨w', hvr', hr⟩ := hv r (by simp [Instruction.operands]) w hvr
    have hcmp := compare_moved (hM.ordered hm) (hφ.imp_right fun h => h d op l r rfl v w hvl hvr) op
      hl hr
    refine ⟨_, ?_, .plain (.refl ι) (.some (.data (v := .bool b) rfl)) hm⟩
    simp [act, Instruction.mapOperands, Instruction.redirect, hvl', hvr', hcmp, hb]
  | select d c a b =>
    refine .bind (hv c (by simp [Instruction.operands])) fun v v' hc => ?_
    intro o ho
    simp only [bind_eq_bind, bind_eq_some_iff] at ho
    obtain ⟨t, ht, x, hx, ho⟩ := ho
    cases ho
    obtain ⟨y, hy, hm'⟩ := hv (if t then a else b) (by cases t <;> simp [Instruction.operands]) x hx
    refine ⟨_, ?_, .plain (.refl ι) (.some hm') hm⟩
    simp [hc.truth?_eq, ht, ← apply_ite h, hy]
  | alloca d ty =>
    rintro o ⟨⟩
    obtain ⟨κ, he, hs, hm'⟩ := hM.push hm ty.zero
    exact ⟨_, rfl, .plain he (.some (.ptr hs)) hm'⟩
  | load d p ty =>
    refine .bind (hv p (by simp [Instruction.operands])) fun v v' hp => ?_
    exact .cell hM hm hp fun c d hc => .value hm (.some (hM.loaded hm hc))
  | store p x =>
    refine .bind (hv p (by simp [Instruction.operands])) fun v v' hp => ?_
    refine .cell hM hm hp fun c d hc => ?_
    refine .bind (hv x (by simp [Instruction.operands])) fun w w' hx => ?_
    exact .value (hM.set hm hc hx) .none
  | loadGlobal d g ty =>
    intro o ho
    obtain ⟨c, hc, ho⟩ := bind_eq_some_iff.mp ho
    cases ho
    obtain ⟨c', hc', hι⟩ := hcells g rfl c hc
    refine ⟨_, ?_, .plain (.refl ι) (.some (hM.loaded hm hι)) hm⟩
    simp [act, Instruction.mapOperands, Instruction.redirect, hc']
  | storeGlobal g x =>
    intro o ho
    obtain ⟨c, hc, ho⟩ := bind_eq_some_iff.mp ho
    obtain ⟨v, hx, ho⟩ := bind_eq_some_iff.mp ho
    cases ho
    obtain ⟨c', hc', hι⟩ := hcells g rfl c hc
    obtain ⟨w, hw, hmv⟩ := hv x (by simp [Instruction.operands]) v hx
    refine ⟨_, ?_, .plain (.refl ι) .none (hM.set hm hι hmv)⟩
    simp [act, Instruction.mapOperands, Instruction.redirect, hc', hw]
  | call d f args => exact .call f hv
  | callIndirect d t args =>
    refine .bind (hv t (by simp [Instruction.operands])) fun v v' ht => ?_
    cases ht with
    | ptr hc => rintro o ⟨⟩
    | func f => exact .call f fun o ho => hv o (mem_cons_of_mem _ ho)
    | data hd =>
      intro o ho
      cases v <;> first | cases ho | cases hd
  | inlineAsm d asm ins => rintro o ⟨⟩
  | functionRef d f => exact .value hm (.some (.func f))
  | marker => exact .value hm .none

theorem leads_carried {t : Terminator} (label : BlockId → BlockId)
    (hv : ∀ o ∈ t.operands, Carried φ ι (ρ.value o) (σ.value (h o))) :
    (∀ l, leads ρ t = some (.goto l) →
      leads σ ((t.mapOperands h).mapTargets label) = some (.goto (label l))) ∧
    ∀ v, leads ρ t = some (.back v) →
      ∃ w, leads σ ((t.mapOperands h).mapTargets label) = some (.back w) ∧ MovedOption φ ι v w := by
  cases t with
  | branch t => exact ⟨by rintro l ⟨⟩; rfl, by rintro v ⟨⟩⟩
  | condBranch c t e =>
    simp only [leads, bind_eq_bind, bind_eq_some_iff]
    refine ⟨?_, ?_⟩
    · rintro l ⟨v, hc, b, hb, ⟨⟩⟩
      obtain ⟨w, hw, hm⟩ := hv c (by simp [Terminator.operands]) v hc
      cases b <;> simp [Terminator.mapOperands, Terminator.mapTargets, hw, hm.truth?_eq, hb]
    · rintro v ⟨v, hc, b, hb, ⟨⟩⟩
  | switch x cases d =>
    simp only [leads, bind_eq_bind, bind_eq_some_iff]
    refine ⟨?_, ?_⟩
    · rintro l ⟨v, hx, i, hi, ⟨⟩⟩
      obtain ⟨w, hw, hm⟩ := hv x (by simp [Terminator.operands]) v hx
      have hlookup := Table.lookup_mapEntries (fun _ => label) i cases
      simp [Terminator.mapOperands, Terminator.mapTargets, hw, hm.integer?_eq, hi, hlookup,
        Option.getD_map]
    · rintro v ⟨v, hx, i, hi, ⟨⟩⟩
  | ret x =>
    cases x with
    | none => exact ⟨by rintro l ⟨⟩, by rintro v ⟨⟩; exact ⟨none, rfl, .none⟩⟩
    | some x =>
      simp only [leads, bind_eq_bind, bind_eq_some_iff]
      refine ⟨?_, ?_⟩
      · rintro l ⟨v, hx, ⟨⟩⟩
      · rintro u ⟨v, hx, ⟨⟩⟩
        obtain ⟨w, hw, hm⟩ := hv x (by simp [Terminator.operands]) v hx
        exact ⟨some w, by simp [Terminator.mapOperands, Terminator.mapTargets, hw], .some hm⟩
  | unreachable => exact ⟨by rintro l ⟨⟩, by rintro v ⟨⟩⟩

end Act

end SiteFusion
