import Mathlib
import SiteFusion.Code.Assembly
import SiteFusion.Proofs.NumberedTransforms

namespace SiteFusion

variable {α β : Type} {f : Function} {id : FuncId} {m : Module} {n : Nat} {name : String}

theorem toNat_toUInt32 (h : n < 2 ^ 32) : n.toUInt32.toNat = n :=
  Nat.mod_eq_of_lt h

theorem map_reg_mapIdx (params : List (String × Ty)) :
    ((params.mapIdx fun i p => Param.mk p.1 p.2 ⟨i.toUInt32⟩).map Param.reg) =
      (List.range params.length).map fun i => (⟨i.toUInt32⟩ : Reg) := by
  refine List.ext_getElem? fun i => ?_
  simp only [List.getElem?_map, List.getElem?_mapIdx]
  by_cases hi : i < params.length <;> simp [hi]

theorem nodup_range_toUInt32 (h : n ≤ 2 ^ 32) :
    ((List.range n).map fun i => (⟨i.toUInt32⟩ : Reg)).Nodup := by
  refine List.Nodup.map_on (fun i hi j hj he => ?_) List.nodup_range
  have hi' := List.mem_range.mp hi
  have hj' := List.mem_range.mp hj
  have hn : i.toUInt32.toNat = j.toUInt32.toNat := congrArg (fun r : Reg => r.index.toNat) he
  rwa [toNat_toUInt32 (Nat.lt_of_lt_of_le hi' h), toNat_toUInt32 (Nat.lt_of_lt_of_le hj' h)] at hn

theorem Function.numbered_of_params (hn : n < 2 ^ 32)
    (hp : f.signature.params.map Param.reg = (List.range n).map fun i => (⟨i.toUInt32⟩ : Reg))
    (hnext : f.nextReg = n.toUInt32)
    (hg : f.graph = .start ∨ f.graph = { Graph.start with blocks := .empty }) : f.Numbered := by
  have hdefs : f.defs = (List.range n).map fun i => (⟨i.toUInt32⟩ : Reg) := by
    rw [Function.defs, hp]
    rcases hg with hg | hg <;> rw [hg] <;> exact List.append_nil _
  refine ⟨fun k b hb => ?_, fun k b hb => ?_, fun o ho => ?_, fun r hr => ?_, ?_, ?_⟩
  · rcases hg with hg | hg
    · rw [hg, Graph.start, Graph.block?, Table.get?_insert] at hb
      split at hb
      · next he =>
        cases hb
        exact he.symm
      · cases hb
    · rw [hg] at hb
      cases hb
  · rcases hg with hg | hg
    · rw [hg, Graph.start, Graph.block?, Table.get?_insert] at hb
      split at hb
      · next he =>
        rw [he, hg]
        decide
      · cases hb
    · rw [hg] at hb
      cases hb
  · rw [Function.opIds] at ho
    rcases hg with hg | hg <;> rw [hg] at ho ⊢
    · rw [List.mem_singleton.mp ho]
      decide
    · cases ho
  · rw [hdefs] at hr
    obtain ⟨i, hi, rfl⟩ := List.mem_map.mp hr
    have hi' := List.mem_range.mp hi
    rw [hnext, UInt32.lt_iff_toNat_lt, toNat_toUInt32 hn]
    dsimp only
    rw [toNat_toUInt32 (Nat.lt_trans hi' hn)]
    exact hi'
  · rw [Function.opIds]
    rcases hg with hg | hg <;> rw [hg]
    · exact List.nodup_singleton _
    · exact List.nodup_nil
  · rw [hdefs]
    exact nodup_range_toUInt32 (Nat.le_of_lt hn)

/-- The registers of parameters are different as long as there are enough numbers. -/
theorem Function.create_numbered_iff (id : FuncId) (name : String) (params : List (String × Ty))
    (result : Ty) :
    (Function.create id name params result).Numbered ↔ params.length < 2 ^ 32 := by
  constructor
  · intro h
    refine Nat.lt_of_not_le fun hle => ?_
    have hmem : (⟨(2 ^ 32 - 1 : Nat).toUInt32⟩ : Reg) ∈ (create id name params result).defs := by
      refine List.mem_append_left _ ?_
      rw [create, map_reg_mapIdx]
      exact List.mem_map.mpr ⟨2 ^ 32 - 1, List.mem_range.mpr (by omega), rfl⟩
    have hlt := UInt32.lt_iff_toNat_lt.mp (h.defBound _ hmem)
    rw [toNat_toUInt32 (by decide)] at hlt
    have hbound := (create id name params result).nextReg.toNat_lt
    omega
  · intro h
    exact numbered_of_params h (map_reg_mapIdx params) (by simp [create]) (.inl rfl)

theorem Function.declaration_numbered {params : List (String × Ty)} {result : Ty}
    (h : params.length < 2 ^ 32) : (Function.declaration id name params result).Numbered :=
  numbered_of_params h (map_reg_mapIdx params) (by simp [declaration, create]) (.inr rfl)

theorem Module.Numbered.freshFunction {n : Module} (h : m.Numbered)
    (hm : m.freshFunction = .ok (n, id)) : n.Numbered := by
  obtain ⟨next, hn, hm⟩ := bind_eq_ok.mp hm
  cases hm
  have hnext := Counter.next_eq_ok hn
  refine ⟨h.functionKey, fun k f hf => ?_, h.globalKey, h.globalBound, h.function⟩
  have hlt := UInt32.lt_iff_toNat_lt.mp (h.functionBound k f hf)
  rw [UInt32.lt_iff_toNat_lt]
  dsimp only
  omega

theorem Module.Numbered.addFunction {n : Module} (h : m.Numbered) (hf : f.Numbered)
    (hm : m.addFunction f = .ok n) : n.Numbered := by
  have key : ∀ next : UInt32, m.nextFunction ≤ next → f.id.index < next →
      ({ m with nextFunction := next, functions := m.functions.insert f.id f } : Module).Numbered := by
    intro next hle hlt
    refine ⟨fun k g hg => ?_, fun k g hg => ?_, h.globalKey, h.globalBound, fun k g hg => ?_⟩
    · simp only [function?, Table.get?_insert] at hg
      split at hg
      · next he =>
        cases hg
        exact he.symm
      · exact h.functionKey k g hg
    · simp only [function?, Table.get?_insert] at hg
      split at hg
      · next he =>
        cases hg
        rw [he]
        exact hlt
      · exact UInt32.lt_of_lt_of_le (h.functionBound k g hg) hle
    · simp only [function?, Table.get?_insert] at hg
      split at hg
      · cases hg
        exact hf
      · exact h.function k g hg
  unfold Module.addFunction at hm
  split at hm
  · next hlt =>
    cases hm
    exact key _ (UInt32.le_refl _) hlt
  · next hge =>
    obtain ⟨next, hn, hm⟩ := bind_eq_ok.mp hm
    cases hm
    have hnext := Counter.next_eq_ok hn
    have hle := UInt32.le_iff_toNat_le.mp (UInt32.not_lt.mp hge)
    refine key next (UInt32.le_iff_toNat_le.mpr ?_) (UInt32.lt_iff_toNat_lt.mpr ?_) <;> omega

theorem Module.Numbered.addGlobal {n : Module} {ty : Ty} {i : Option Const} {mutable : Bool}
    {linkage : Linkage} {g : GlobalId} (h : m.Numbered)
    (hm : m.addGlobal name ty i mutable linkage = .ok (n, g)) : n.Numbered := by
  obtain ⟨next, hn, hm⟩ := bind_eq_ok.mp hm
  cases hm
  have hnext := Counter.next_eq_ok hn
  refine ⟨h.functionKey, h.functionBound, fun k g hg => ?_, fun k g hg => ?_, h.function⟩
  · simp only [Table.get?_insert] at hg
    split at hg
    · next he =>
      cases hg
      exact he.symm
    · exact h.globalKey k g hg
  · rw [UInt32.lt_iff_toNat_lt]
    simp only [Table.get?_insert] at hg
    dsimp only
    split at hg
    · next he =>
      subst he
      dsimp only
      omega
    · have hlt := UInt32.lt_iff_toNat_lt.mp (h.globalBound k g hg)
      omega

namespace Assembly

/-- The function that is being written. -/
def current? (a : Assembly) : Option Function := a.function.bind a.module.function?

/-- The module is numbered, and some registers are out of place in the current function. -/
structure Holds (a : Assembly) (regs : List Reg) : Prop where
  module : a.module.Numbered
  current : ∀ f, a.current? = some f → f.Spare (f.outline True True) [] regs

theorem holds_nil {a : Assembly} (h : a.module.Numbered) : a.Holds [] := by
  refine ⟨h, fun f hf => Function.numbered_iff.mp ?_⟩
  obtain ⟨k, -, hk⟩ := Option.bind_eq_some_iff.mp hf
  exact h.function k f hk

end Assembly

namespace Build

/-- From assemblies with `P`, a step goes to numbered modules, and with a result to `Q`. -/
def Keeps (P : Assembly → Prop) (b : Build α) (Q : α → Assembly → Prop) : Prop :=
  ∀ a r a', P a → b.apply a = .ok (r, a') → a'.module.Numbered ∧ ∀ x, r = some x → Q x a'

variable {P : Assembly → Prop} {Q : α → Assembly → Prop} {R : β → Assembly → Prop}
  {i : Reg → Instruction} {params : List (String × Ty)} {regs : List Reg} {ty : Ty}

theorem apply_bind (b : Build α) (c : α → Build β) (a : Assembly) :
    (b >>= c).apply a = b.apply a >>= fun e => match e.1 with
      | none => .ok (none, e.2)
      | some x => (c x).apply e.2 := by
  simp only [apply, bind, OptionT.bind, OptionT.run, OptionT.mk, StateT.run, StateT.bind]
  congr 1
  funext e
  obtain ⟨x, a'⟩ := e
  cases x <;> rfl

theorem apply_ofOption (x : Option α) (a : Assembly) : (ofOption x).apply a = .ok (x, a) := by
  cases x <;> rfl

theorem apply_lift (e : Edit α) (a : Assembly) :
    apply (liftM e) a = e >>= fun x => .ok (some x, a) := by
  cases e <;> rfl

theorem apply_current (a : Assembly) : current.apply a = .ok (a.current?, a) := by
  rw [current, apply_bind]
  exact apply_ofOption _ a

theorem apply_onModule (h : Module → Edit (Module × α)) (a : Assembly) :
    (onModule h).apply a = h a.module >>= fun e => .ok (some e.2, { a with module := e.1 }) := by
  rw [onModule, apply_bind]
  change apply (liftM (h a.module) >>= _) a = _
  rw [apply_bind, apply_lift]
  cases h a.module <;> rfl

theorem apply_onFunction (h : Function → Edit (Function × Option α)) (a : Assembly) :
    (onFunction h).apply a = match a.function, a.current? with
      | some key, some f =>
        h f >>= fun e => .ok (e.2, { a with module := a.module.setFunction key e.1 })
      | _, _ => .ok (none, a) := by
  rw [onFunction, apply_bind]
  change apply (ofOption a.function >>= _) a = _
  rw [apply_bind, apply_ofOption]
  cases a.function with
  | none => rfl
  | some key =>
    change apply (current >>= _) a = _
    rw [apply_bind, apply_current]
    cases a.current? with
    | none => rfl
    | some f =>
      change apply (liftM (h f) >>= _) a = _
      rw [apply_bind, apply_lift]
      dsimp only
      cases h f with
      | error e => rfl
      | ok e =>
        change apply (ofOption e.2) _ = _
        rw [apply_ofOption]
        rfl

theorem keeps_bind {b : Build α} {c : α → Build β} (hb : Keeps P b Q)
    (hc : ∀ x, Keeps (Q x) (c x) R) : Keeps P (b >>= c) R := by
  intro a r a' ha hrun
  rw [apply_bind] at hrun
  obtain ⟨⟨x, a₁⟩, h₁, hrun⟩ := bind_eq_ok.mp hrun
  obtain ⟨hn, hq⟩ := hb a x a₁ ha h₁
  cases x with
  | none =>
    cases hrun
    exact ⟨hn, fun x hx => nomatch hx⟩
  | some x => exact hc x a₁ r a' (hq x rfl) hrun

theorem keeps_pure (hP : ∀ a, P a → a.module.Numbered) {x : α} (hx : ∀ a, P a → Q x a) :
    Keeps P (pure x) Q := by
  intro a r a' ha hrun
  cases hrun
  exact ⟨hP a ha, fun y hy => by cases hy; exact hx a ha⟩

theorem keeps_read (hP : ∀ a, P a → a.module.Numbered) {b : Build α}
    (hb : ∀ a r a', b.apply a = .ok (r, a') → a' = a) : Keeps P b fun _ => P := by
  intro a r a' ha hrun
  obtain rfl := hb a r a' hrun
  exact ⟨hP a' ha, fun _ _ => ha⟩

theorem keeps_onFunction {h : Function → Edit (Function × Option α)} {S : α → List Reg}
    (hh : ∀ f g r, f.Spare (f.outline True True) [] regs → h f = .ok (g, r) →
      g.id = f.id ∧ g.Numbered ∧ ∀ x, r = some x → g.Spare (g.outline True True) [] (S x)) :
    Keeps (fun a => a.Holds regs) (onFunction h) fun x a => a.Holds (S x) := by
  intro a r a' ha hrun
  rw [apply_onFunction] at hrun
  split at hrun
  · next key f hkey hf =>
    obtain ⟨⟨g, r'⟩, h₁, hrun⟩ := bind_eq_ok.mp hrun
    cases hrun
    obtain ⟨hid, hn, hs⟩ := hh f g _ (ha.current f hf) h₁
    have hfun : a.module.function? key = some f := by
      rw [Assembly.current?, hkey] at hf
      exact hf
    have hm := ha.module.setFunction hfun hn hid
    refine ⟨hm, fun x hx => ⟨hm, fun f' hf' => ?_⟩⟩
    obtain ⟨k, hk, hf'⟩ := Option.bind_eq_some_iff.mp hf'
    dsimp only at hk hf'
    rw [hkey] at hk
    cases hk
    rw [Module.function?_setFunction, if_pos rfl, hfun] at hf'
    cases hf'
    exact hs x hx
  · cases hrun
    exact ⟨ha.module, fun x hx => nomatch hx⟩

/-- The step keeps the numbering, with or without a result. -/
def KeepsNumbers (b : Build α) : Prop :=
  Keeps (fun a => a.Holds []) b fun _ a => a.Holds []

theorem freshReg_keeps (ty : Ty) :
    Keeps (fun a => a.Holds []) (freshReg ty) fun r a => a.Holds [r] := by
  refine keeps_onFunction (S := fun r => [r]) fun f g r hs hf => ?_
  obtain ⟨⟨g', r'⟩, h₁, hf⟩ := bind_eq_ok.mp hf
  cases hf
  have hs' := hs.freshTyped h₁
  refine ⟨congrArg Header.id hs'.header, (hs'.numbered trivial trivial).1, fun x hx => ?_⟩
  cases hx
  exact hs'.rebase

theorem currentBlock_keeps :
    Keeps (fun a => a.Holds regs) currentBlock fun _ a => a.Holds regs := by
  refine keeps_read (fun a ha => ha.module) fun a r a' hrun => ?_
  change (ofOption a.block).apply a = _ at hrun
  rw [apply_ofOption] at hrun
  cases hrun
  rfl

/-- Something that defines just the registers that are out of place is put into a block. -/
theorem place_keeps {κ : Type} {kind : κ} {h : Operation κ → Block → Block}
    (hid : ∀ o b, (h o b).id = b.id)
    (ho : ∀ o b a, o.kind = kind → (h o b).opIds.count a ≤ b.opIds.count a + [o.id].count a)
    (hd : ∀ o b r, o.kind = kind → (h o b).defs.count r ≤ b.defs.count r + regs.count r) :
    Keeps (fun a => a.Holds regs) (place kind h) fun _ a => a.Holds [] := by
  refine keeps_bind currentBlock_keeps fun b => ?_
  refine keeps_onFunction (S := fun _ => []) fun f g r hs hf => ?_
  obtain ⟨⟨f₁, o⟩, h₁, hf⟩ := bind_eq_ok.mp hf
  obtain ⟨hs₁, hk⟩ := hs.op h₁
  dsimp only at hf
  split at hf
  · cases hf
    have hs₂ : (f₁.modifyBlock b (h o)).Spare (f.outline True True) [] [] := by
      refine hs₁.modifyBlock (hid o) (fun _ => ⟨by simp, by simp⟩) fun s _ =>
        ⟨fun a => ?_, fun r => ?_⟩
      · have hle := ho o s a hk
        simp only [List.count_nil]
        omega
      · have hle := hd o s r hk
        simp only [List.count_nil]
        omega
    obtain ⟨hn, hhead⟩ := hs₂.numbered trivial trivial
    exact ⟨congrArg Header.id hhead, hn, fun _ _ => Function.numbered_iff.mp hn⟩
  · cases hf
    obtain ⟨hn, hhead⟩ := hs₁.numbered trivial trivial
    refine ⟨congrArg Header.id hhead, hn, fun _ hx => ?_⟩
    cases hx

theorem push_keeps {i : Instruction} (hi : i.dest?.toList = regs) :
    Keeps (fun a => a.Holds regs) (push i) fun _ a => a.Holds [] := by
  refine place_keeps (fun _ _ => rfl) (fun o b a _ => ?_) fun o b r hk => ?_
  · simp only [Block.count_opIds, Block.push, List.map_append, List.map_cons, List.map_nil,
      List.count_append]
    omega
  · simp only [Block.count_defs, Block.push, List.filterMap_append, List.count_append, ← hi, ← hk,
      List.filterMap_cons, List.filterMap_nil]
    cases o.kind.dest? with
    | none => simp
    | some d =>
      simp only [Option.toList_some]
      omega

theorem define_keeps (hi : ∀ r, (i r).dest? = some r) : KeepsNumbers (define ty i) := by
  refine keeps_bind (freshReg_keeps ty) fun r => ?_
  refine keeps_bind (push_keeps ?_) fun _ => keeps_pure (fun a ha => ha.module) fun a ha => ha
  rw [hi]
  rfl

theorem defineUnlessVoid_keeps {i : Option Reg → Instruction} (hi : ∀ r, (i r).dest? = r) :
    KeepsNumbers (defineUnlessVoid ty i) := by
  have hpush : ∀ r : Option Reg, Keeps (fun a => a.Holds r.toList)
      (do let op ← push (i r); return (op, r)) fun _ a => a.Holds [] := by
    intro r
    refine keeps_bind (push_keeps ?_) fun _ => keeps_pure (fun a ha => ha.module) fun a ha => ha
    rw [hi]
  unfold defineUnlessVoid
  dsimp only
  split
  · exact hpush none
  · rw [map_eq_pure_bind, bind_assoc]
    refine keeps_bind (freshReg_keeps ty) fun r => ?_
    rw [pure_bind]
    exact hpush (some r)

theorem operandType_keeps (o : Operand) :
    Keeps (fun a => a.Holds []) (operandType o) fun _ a => a.Holds [] := by
  cases o with
  | const c => exact keeps_pure (fun a ha => ha.module) fun a ha => ha
  | reg r =>
    refine keeps_read (fun a ha => ha.module) fun a x a' hrun => ?_
    rw [operandType, apply_bind, apply_current] at hrun
    cases hc : a.current? with
    | none =>
      rw [hc] at hrun
      cases hrun
      rfl
    | some f =>
      rw [hc] at hrun
      change (ofOption (f.regTypes.get? r)).apply a = _ at hrun
      rw [apply_ofOption] at hrun
      cases hrun
      rfl

/-- An instruction that defines a register of the type of an operand. -/
theorem defineLike_keeps {o : Operand} (hi : ∀ r, (i r).dest? = some r) :
    KeepsNumbers (do define (← operandType o) i) :=
  keeps_bind (operandType_keeps o) fun _ => define_keeps hi

theorem call_keeps (f : FuncId) (args : List Operand) : KeepsNumbers (call f args) := by
  unfold call
  refine keeps_bind (Q := fun _ a => a.Holds []) ?_ fun callee => ?_
  · refine keeps_read (fun a ha => ha.module) fun a r a' hrun => ?_
    cases hrun
    rfl
  · refine keeps_bind (Q := fun _ a => a.Holds []) ?_ fun c => defineUnlessVoid_keeps fun _ => rfl
    refine keeps_read (fun a ha => ha.module) fun a r a' hrun => ?_
    rw [apply_ofOption] at hrun
    cases hrun
    rfl

theorem terminate_keeps (t : Terminator) : KeepsNumbers (terminate t) := by
  refine keeps_bind (place_keeps (fun _ _ => rfl) (fun o b a _ => ?_) fun o b r _ => ?_) fun _ =>
    keeps_pure (fun a ha => ha.module) fun a ha => ha
  · simp only [Block.count_opIds]
    omega
  · simp [Block.count_defs]

theorem phi_keeps (ty : Ty) : KeepsNumbers (phi ty) := by
  refine keeps_bind currentBlock_keeps fun _ => ?_
  refine keeps_bind (freshReg_keeps ty) fun r => ?_
  refine keeps_bind (place_keeps (fun _ _ => rfl) (fun o b a _ => ?_) fun o b r hk => ?_) fun _ =>
    keeps_pure (fun a ha => ha.module) fun a ha => ha
  · simp only [Block.count_opIds, Block.pushPhi, List.map_append, List.map_cons, List.map_nil,
      List.count_append]
    omega
  · simp only [Block.count_defs, Block.pushPhi, List.map_append, List.map_cons, List.map_nil,
      List.count_append, hk]
    omega

theorem map_addIncoming {β : Type} {c : Operation Phi → β} {r : Reg} {e : BlockId × Operand}
    (hc : ∀ p l, c (p.map fun q => { q with incoming := l }) = c p) (l : List (Operation Phi)) :
    (addIncoming r e l).map c = l.map c := by
  induction l with
  | nil => rfl
  | cons p l ih =>
    rw [addIncoming]
    split
    · rw [List.map_cons, List.map_cons]
      exact congrArg (· :: l.map c) (hc p _)
    · rw [List.map_cons, List.map_cons, ih]

theorem incoming_keeps (b : BlockId) (r : Reg) (pred : BlockId) (v : Operand) :
    KeepsNumbers (incoming b r pred v) := by
  refine keeps_onFunction (S := fun _ => []) fun f g x hs hf => ?_
  split at hf
  · cases hf
    exact ⟨rfl, (hs.numbered trivial trivial).1, fun _ _ => hs⟩
  · split at hf
    · cases hf
      have hs' := hs.unchanged (k := b)
        (c := fun b => { b with phis := addIncoming r (pred, v) b.phis }) (fun _ => rfl)
        (fun b => by
          rw [Block.opIds_eq, Block.opIds_eq, map_addIncoming (c := Operation.id) fun _ _ => rfl])
        (fun b => by
          rw [Block.defs, Block.defs, map_addIncoming (c := fun p => p.kind.dest) fun _ _ => rfl])
      exact ⟨rfl, (hs'.numbered trivial trivial).1, fun _ _ => hs'⟩
    · cases hf
      exact ⟨rfl, (hs.numbered trivial trivial).1, fun _ _ => hs⟩

theorem createBlock_keeps : KeepsNumbers createBlock := by
  refine keeps_onFunction (S := fun _ => []) fun f g x hs hf => ?_
  obtain ⟨⟨f₁, b⟩, h₁, hf⟩ := bind_eq_ok.mp hf
  cases hf
  obtain ⟨hn, hhead⟩ := (hs.createBlock h₁).1.numbered trivial trivial
  exact ⟨congrArg Header.id hhead, hn, fun _ _ => Function.numbered_iff.mp hn⟩

theorem createLabelled_keeps (label : String) : KeepsNumbers (createLabelled label) := by
  refine keeps_onFunction (S := fun _ => []) fun f g x hs hf => ?_
  obtain ⟨⟨f₁, b⟩, h₁, hf⟩ := bind_eq_ok.mp hf
  cases hf
  have hs' := (hs.createBlock h₁).1.unchanged (k := b)
    (c := fun b => { b with label := some label }) (fun _ => rfl) (fun _ => rfl) fun _ => rfl
  obtain ⟨hn, hhead⟩ := hs'.numbered trivial trivial
  exact ⟨congrArg Header.id hhead, hn, fun _ _ => Function.numbered_iff.mp hn⟩

theorem setLinkage_keeps (linkage : Linkage) : KeepsNumbers (setLinkage linkage) := by
  refine keeps_onFunction (S := fun _ => []) fun f g x hs hf => ?_
  cases hf
  have hn := (hs.numbered trivial trivial).1
  have hn' : ({ f with attributes := { f.attributes with linkage := linkage } } : Function).Numbered :=
    ⟨hn.blockKey, hn.blockBound, hn.opBound, hn.defBound, hn.opOnce, hn.defOnce⟩
  exact ⟨rfl, hn', fun _ _ => Function.numbered_iff.mp hn'⟩

theorem modify_keeps {h : Assembly → Assembly} (hm : ∀ a, (h a).module = a.module) :
    KeepsNumbers (modify h) := by
  intro a r a' ha hrun
  cases hrun
  have hn : (h a).module.Numbered := by
    rw [hm]
    exact ha.module
  exact ⟨hn, fun _ _ => Assembly.holds_nil hn⟩

theorem onModule_keeps {h : Module → Edit (Module × α)}
    (hh : ∀ m n x, m.Numbered → h m = .ok (n, x) → n.Numbered) : KeepsNumbers (onModule h) := by
  intro a r a' ha hrun
  rw [apply_onModule] at hrun
  obtain ⟨⟨m, x⟩, h₁, hrun⟩ := bind_eq_ok.mp hrun
  cases hrun
  have hn := hh a.module m x ha.module h₁
  exact ⟨hn, fun _ _ => Assembly.holds_nil hn⟩

theorem startFunction_keeps (hp : params.length < 2 ^ 32) (name : String) (result : Ty) :
    KeepsNumbers (startFunction name params result) := by
  refine keeps_bind (onModule_keeps fun m n x h hm => ?_) fun f => ?_
  · obtain ⟨⟨m₁, id⟩, h₁, hm⟩ := bind_eq_ok.mp hm
    obtain ⟨m₂, h₂, hm⟩ := bind_eq_ok.mp hm
    cases hm
    exact (h.freshFunction h₁).addFunction ((Function.create_numbered_iff ..).mpr hp) h₂
  · exact keeps_bind (modify_keeps fun _ => rfl) fun _ =>
      keeps_pure (fun a ha => ha.module) fun a ha => ha

theorem declareFunction_keeps (hp : params.length < 2 ^ 32) (name : String) (result : Ty) :
    KeepsNumbers (declareFunction name params result) := by
  refine onModule_keeps fun m n x h hm => ?_
  obtain ⟨⟨m₁, id⟩, h₁, hm⟩ := bind_eq_ok.mp hm
  obtain ⟨m₂, h₂, hm⟩ := bind_eq_ok.mp hm
  cases hm
  exact (h.freshFunction h₁).addFunction (Function.declaration_numbered hp) h₂

end Build

end SiteFusion
