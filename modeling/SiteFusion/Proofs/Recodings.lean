import SiteFusion.Proofs.Adequacy
import SiteFusion.Proofs.MovedValues
import SiteFusion.Proofs.NumberedInline

namespace SiteFusion

open List Option

/-- How the code of a function is found in that of another one. -/
structure Coding extends Duplicates.Renaming where
  /-- The registers that are kept. -/
  live : Reg → Prop
  /-- What registers hold that are set to one constant only. -/
  known : Reg → Option Const
  /-- The edges that are kept. -/
  edge : BlockId → BlockId → Prop

def Coding.all : Coding := ⟨⟨id, id⟩, fun _ => True, fun _ => none, fun _ _ => True⟩

/-- Two programs, and what is the same in both. -/
structure Translation where
  source : Program
  target : Program
  sourceCells : Table GlobalId Nat
  targetCells : Table GlobalId Nat
  rename : FuncId → FuncId
  pairing : Pairing
  /-- Whether something may be left out. -/
  lax : Prop

namespace Duplicates.Renaming

theorem operand_same (o : Operand) : Renaming.operand ⟨id, id⟩ o = o := by cases o <;> rfl

theorem instruction_same (i : Instruction) : Renaming.instruction ⟨id, id⟩ i = i := by
  rw [Renaming.instruction, funext operand_same]
  cases i <;> simp [Instruction.mapOperands, Instruction.mapDest]

theorem terminator_same (t : Terminator) : Renaming.terminator ⟨id, id⟩ t = t := by
  rw [Renaming.terminator, funext operand_same]
  cases t <;> simp [Terminator.mapOperands, Terminator.mapTargets]

end Duplicates.Renaming

def Proc.redirect (φ : FuncId → FuncId) (p : Proc) : Proc :=
  { p with code := fun k => (p.code k).map fun c =>
      { c with body := c.body.map fun i => i.redirect φ } }

theorem Proc.redirect_id (p : Proc) : p.redirect id = p := by
  simp [Proc.redirect, Instruction.redirect_id]

theorem Instruction.dest?_redirect (i : Instruction) (φ : FuncId → FuncId) :
    (i.redirect φ).dest? = i.dest? := by cases i <;> rfl

theorem Instruction.redirect_mapDest (i : Instruction) (φ : FuncId → FuncId) (h : Reg → Reg) :
    (i.mapDest h).redirect φ = (i.redirect φ).mapDest h := by cases i <;> rfl

theorem act_mapDest (cells : Table GlobalId Nat) (ρ : Regs) (memory : Array Value) (i : Instruction)
    (h : Reg → Reg) : act cells ρ memory (i.mapDest h) = act cells ρ memory i := by
  cases i <;> rfl

def Regs.Apart (ρ : Regs) (i : Instruction) : Prop :=
  ∀ d op l r, i = .compare d op l r → ∀ v w, ρ.value l = some v → ρ.value r = some w →
    bothFunctions v w = false

namespace Coding

variable (n : Coding) {d : Option Reg} {ds : List Reg} {vs : List Value}

def Sharp (d : Reg) : Prop := ∀ r, n.live r → n.reg r = n.reg d → r = d

def Reads (o : Operand) : Prop := ∀ r ∈ o.reg?, n.live r

/-- A register with a known constant is set to this constant. -/
def Sets (i : Instruction) : Prop := ∀ d ∈ i.dest?, ∀ c, n.known d = some c → i = .const d c

def Agree (φ : FuncId → FuncId) (ι : Placing) (ρ σ : Regs) : Prop :=
  ∀ r, n.live r → Carried φ ι (ρ r) (σ (n.reg r))

def Knows (ρ : Regs) : Prop := ∀ r c, n.known r = some c → ∀ v, ρ r = some v → v = .ofConst c

/-- What is left of the phis of the block `k`. -/
inductive Phis (lax : Prop) (k : BlockId) : List Phi → List Phi → Prop
  | nil : Phis lax k [] []
  | keep {q q' : Phi} {qs qs' : List Phi} (hd : q'.dest = n.reg q.dest) (hs : n.Sharp q.dest)
      (hk : n.known q.dest = none)
      (hin : ∀ s o, n.edge s k → q.incomingFor s = some o →
        q'.incomingFor (n.label s) = some (n.operand o) ∧ n.Reads o)
      (ht : Phis lax k qs qs') : Phis lax k (q :: qs) (q' :: qs')
  | drop {q : Phi} {qs qs' : List Phi} (hl : lax) (hd : ¬ n.live q.dest)
      (hk : n.known q.dest = none) (ht : Phis lax k qs qs') : Phis lax k (q :: qs) qs'

variable {n} {φ : FuncId → FuncId} {ι κ : Placing} {ρ σ : Regs}

theorem Agree.extend (h : n.Agree φ ι ρ σ) (he : ι.Extends κ) : n.Agree φ κ ρ σ := by
  intro r hr v hv
  obtain ⟨w, hw, hm⟩ := h r hr v hv
  exact ⟨w, hw, hm.extend he⟩

theorem Agree.value (h : n.Agree φ ι ρ σ) {o : Operand} (ho : n.Reads o) :
    Carried φ ι (ρ.value o) (σ.value (n.operand o)) := by
  cases o with
  | reg r => exact h r (ho r rfl)
  | const c => exact fun v hv => ⟨v, hv, by cases hv; exact .ofConst c⟩

theorem Agree.put (h : n.Agree φ ι ρ σ) (hs : ∀ r ∈ d, n.Sharp r) {v w : Option Value}
    (hm : MovedOption φ ι v w) : n.Agree φ ι (ρ.put d v) (σ.put (d.map n.reg) w) := by
  cases d with
  | none => exact h
  | some d =>
    intro r hr x hx
    by_cases hrd : r = d
    · subst hrd
      rw [Regs.put_self] at hx
      cases hx
      exact ⟨_, Regs.put_self σ _ w, hm.getD⟩
    · have hne : n.reg d ≠ n.reg r := fun he => hrd (hs d rfl r hr he.symm)
      rw [Regs.put_of_ne (by simpa using Ne.symm hrd)] at hx
      rw [map_some, Regs.put_of_ne (by simpa using hne)]
      exact h r hr x hx

theorem Agree.putDead (h : n.Agree φ ι ρ σ) (hd : ∀ r ∈ d, ¬ n.live r) (v : Option Value) :
    n.Agree φ ι (ρ.put d v) σ := by
  intro r hr x hx
  rw [Regs.put_of_ne fun he => hd r he hr] at hx
  exact h r hr x hx

theorem Knows.put (h : n.Knows ρ) (hd : ∀ r ∈ d, n.known r = none) (v : Option Value) :
    n.Knows (ρ.put d v) := by
  intro r c hr x hx
  rw [Regs.put_of_ne fun he => by rw [hd r he] at hr; cases hr] at hx
  exact h r c hr x hx

theorem Sets.known_eq_none {i : Instruction} (h : n.Sets i) (hi : ∀ d c, i ≠ .const d c) :
    ∀ d ∈ i.dest?, n.known d = none := by
  intro d hd
  cases hc : n.known d with
  | none => rfl
  | some c => exact absurd (h d hd c hc) (hi d c)

theorem Knows.act (h : n.Knows ρ) {i : Instruction} (hs : n.Sets i) {cells : Table GlobalId Nat}
    {memory memory' : Array Value} {v : Option Value}
    (ha : act cells ρ memory i = some (.plain v memory')) : n.Knows (ρ.put i.dest? v) := by
  by_cases hi : ∃ d c, i = .const d c
  · obtain ⟨d, c, rfl⟩ := hi
    cases ha
    intro r c' hr x hx
    by_cases hrd : r = d
    · subst hrd
      cases hs r rfl c' hr
      exact (Option.some.inj ((Regs.put_self ρ r _).symm.trans hx)).symm
    · rw [Regs.put_of_ne (by simpa [Instruction.dest?] using Ne.symm hrd)] at hx
      exact h r c' hr x hx
  · exact h.put (hs.known_eq_none fun d c he => hi ⟨d, c, he⟩) v

theorem Agree.bind {ws : List Value} (hall : List.Forall₂ (Moved φ ι) vs ws) (h : n.Agree φ ι ρ σ)
    (hs : ∀ d ∈ ds, n.Sharp d) :
    n.Agree φ ι (Regs.bind ds vs ρ) (Regs.bind (ds.map n.reg) ws σ) := by
  induction hall generalizing ds ρ σ with
  | nil => cases ds <;> exact h
  | cons hm _ ih =>
    cases ds with
    | nil => exact h
    | cons d ds =>
      refine ih (h.put (d := some d) ?_ (.some hm)) fun d hd => hs d (mem_cons_of_mem _ hd)
      rintro r ⟨⟩
      exact hs d mem_cons_self

theorem Knows.bind (h : n.Knows ρ) (hd : ∀ d ∈ ds, n.known d = none) :
    n.Knows (Regs.bind ds vs ρ) := by
  induction ds generalizing vs ρ with
  | nil => exact h
  | cons d ds ih =>
    cases vs with
    | nil => exact h
    | cons v vs =>
      refine ih (h.put (d := some d) ?_ _) fun d hd' => hd d (mem_cons_of_mem _ hd')
      rintro r ⟨⟩
      exact hd d mem_cons_self

namespace Phis

variable {lax : Prop} {k s : BlockId} {qs qs' : List Phi}

theorem map {h : Phi → Phi} (hq : ∀ q ∈ qs, (h q).dest = n.reg q.dest ∧ n.Sharp q.dest ∧
    n.known q.dest = none ∧ ∀ s o, n.edge s k → q.incomingFor s = some o →
      (h q).incomingFor (n.label s) = some (n.operand o) ∧ n.Reads o) :
    n.Phis lax k qs (qs.map h) := by
  induction qs with
  | nil => exact .nil
  | cons q qs ih =>
    obtain ⟨hd, hs, hk, hin⟩ := hq q mem_cons_self
    exact .keep hd hs hk hin (ih fun q hq' => hq q (mem_cons_of_mem _ hq'))

theorem known (h : n.Phis lax k qs qs') : ∀ d ∈ qs.map Phi.dest, n.known d = none := by
  induction h with
  | nil => exact fun _ hd => absurd hd not_mem_nil
  | keep _ _ hk _ _ ih => exact forall_mem_cons.mpr ⟨hk, ih⟩
  | drop _ _ hk _ ih => exact forall_mem_cons.mpr ⟨hk, ih⟩

theorem length_le (h : n.Phis lax k qs qs') : qs'.length ≤ qs.length ∧
    (lax ∨ qs'.length = qs.length) := by
  induction h with
  | nil => exact ⟨Nat.le_refl _, .inr rfl⟩
  | keep _ _ _ _ _ ih => exact ⟨Nat.succ_le_succ ih.1, ih.2.imp_right (congrArg Nat.succ)⟩
  | drop hl _ _ _ ih => exact ⟨Nat.le_succ_of_le ih.1, .inl hl⟩

theorem incomings (h : n.Phis lax k qs qs') (he : n.edge s k) (hr : n.Agree φ ι ρ σ)
    {ρ' σ' : Regs} (hr' : n.Agree φ ι ρ' σ') {vs : List Value}
    (hvs : incomings ρ s qs = some vs) :
    ∃ ws, SiteFusion.incomings σ (n.label s) qs' = some ws ∧
      n.Agree φ ι (Regs.bind (qs.map Phi.dest) vs ρ') (Regs.bind (qs'.map Phi.dest) ws σ') := by
  induction h generalizing vs ρ' σ' with
  | nil =>
    cases hvs
    exact ⟨[], rfl, hr'⟩
  | @keep q q' qs qs' hd hs _ hin _ ih =>
    obtain ⟨v, vs', hv, hvs', rfl⟩ := incomings_cons.mp hvs
    obtain ⟨o, ho, hv⟩ := bind_eq_some_iff.mp hv
    obtain ⟨ho', hlive⟩ := hin s o he ho
    obtain ⟨w, hw, hm⟩ := hr.value hlive v hv
    have hput := hr'.put (d := some q.dest) (by rintro r ⟨⟩; exact hs) (.some hm)
    obtain ⟨ws, hws, hbind⟩ := ih hput hvs'
    refine ⟨w :: ws, incomings_cons.mpr ⟨w, ws, by simp [ho', hw], hws, rfl⟩, ?_⟩
    rw [map_cons (l := qs'), hd]
    exact hbind
  | @drop q qs qs' _ hd _ _ ih =>
    obtain ⟨v, vs', -, hvs', rfl⟩ := incomings_cons.mp hvs
    exact ih (hr'.putDead (d := some q.dest) (by rintro r ⟨⟩; exact hd) (some v)) hvs'

end Phis

end Coding

namespace Translation

variable (T : Translation) {f f' : FuncId} {p p' : Proc} {v : Option Value} {vs ws : List Value}

/-- An instruction that is kept. -/
structure Keeps (n : Coding) (i i' : Instruction) : Prop where
  dest : i'.dest? = i.dest?.map n.reg
  sharp : ∀ d ∈ i.dest?, n.Sharp d
  sets : n.Sets i
  acts : ∀ {ι small large ρ σ}, T.pairing ι small large → n.Agree T.rename ι ρ σ →
    (T.rename = id ∨ ρ.Apart i) →
    Outcome.Carried T.rename T.pairing ι (act T.sourceCells ρ small i)
      (act T.targetCells σ large i')

/-- An instruction that is left out. -/
structure Drops (n : Coding) (i : Instruction) : Prop where
  lax : T.lax
  dead : ∀ d ∈ i.dest?, ¬ n.live d
  sets : n.Sets i
  acts : ∀ {ι small large ρ o}, T.pairing ι small large → act T.sourceCells ρ small i = some o →
    ∃ v small', o = .plain v small' ∧ T.pairing ι small' large

inductive Body (n : Coding) : List Instruction → List Instruction → Prop
  | nil : Body n [] []
  | keep {i i' : Instruction} {is is' : List Instruction} (h : T.Keeps n i i')
      (ht : Body n is is') : Body n (i :: is) (i' :: is')
  | drop {i : Instruction} {is is' : List Instruction} (h : T.Drops n i) (ht : Body n is is') :
      Body n (i :: is) is'

def Exits (n : Coding) (k : BlockId) (t t' : Terminator) : Prop :=
  ∀ ι ρ σ, n.Agree T.rename ι ρ σ → n.Knows ρ →
    (∀ l, leads ρ t = some (.goto l) → leads σ t' = some (.goto (n.label l)) ∧ n.edge k l) ∧
    ∀ v, leads ρ t = some (.back v) → ∃ w, leads σ t' = some (.back w) ∧ MovedOption T.rename ι v w

/-- One function does in the target what the other one does in the source. -/
structure Recodes (n : Coding) (p p' : Proc) : Prop where
  params : p'.params = p.params.map n.reg
  bound : ∀ d ∈ p.params, n.Sharp d ∧ n.known d = none
  varargs : p'.varargs = p.varargs
  entry : p'.entry = n.label p.entry
  code : ∀ {k c}, (k = p.entry ∨ ∃ s, n.edge s k) → p.code k = some c →
    ∃ c', p'.code (n.label k) = some c' ∧ n.Phis T.lax k c.phis c'.phis ∧
      T.Body n c.body c'.body ∧ T.Exits n k c.exit c'.exit

def Finds (n : Coding) (f f' : FuncId) : Prop :=
  ∃ p p', T.source f = some p ∧ T.target f' = some p' ∧ T.Recodes n p p'

/-- Every function is found under its other name. -/
structure Sound : Prop where
  faithful : T.pairing.Faithful T.rename
  finds : ∀ {f p}, T.source f = some p → ∃ n, T.Finds n f (T.rename f)

structure Fits (n : Coding) (ι : Placing) (a a' : Frame) : Prop where
  label : a'.label = n.label a.label
  rest : T.Body n a.rest a'.rest
  exit : T.Exits n a.label a.exit a'.exit
  regs : n.Agree T.rename ι a.regs a'.regs
  known : n.Knows a.regs

structure Waits (ι : Placing) (w w' : Waiting) : Prop where
  frame : ∃ n, T.Finds n w.function w'.function ∧ T.Fits n ι w.frame w'.frame ∧
    w'.dest = w.dest.map n.reg ∧ ∀ d ∈ w.dest, n.Sharp d ∧ n.known d = none

/-- The same point of a run. -/
structure Like (ι : Placing) (c c' : Config) : Prop where
  memory : T.pairing ι c.memory c'.memory
  frame : ∃ n, T.Finds n c.function c'.function ∧ T.Fits n ι c.frame c'.frame
  callers : List.Forall₂ (T.Waits ι) c.callers c'.callers

/-- If functions have other names, they are not compared now. -/
def Clear (c : Config) : Prop :=
  T.rename = id ∨ ∀ i rest, c.frame.rest = i :: rest → c.frame.regs.Apart i

/-- The steps that are taken there, and those that were taken here. -/
def Cost (k' k : Nat) : Prop := k' ≤ k ∧ (T.lax ∨ k' = k)

variable {T} {n : Coding} {ι κ : Placing} {a a' : Frame} {c c' d : Config} {k : Nat}

theorem Fits.extend (h : T.Fits n ι a a') (he : ι.Extends κ) : T.Fits n κ a a' :=
  { h with regs := h.regs.extend he }

theorem Waits.extend {w w' : Waiting} (h : T.Waits ι w w') (he : ι.Extends κ) :
    T.Waits κ w w' := by
  obtain ⟨n, hn, hf, hd⟩ := h.frame
  exact ⟨n, hn, hf.extend he, hd⟩

theorem Cost.refl (k : Nat) : T.Cost k k := ⟨Nat.le_refl k, .inr rfl⟩

theorem Cost.add {k k' m m' : Nat} (h : T.Cost k' k) (h' : T.Cost m' m) :
    T.Cost (m' + k') (m + k) := by
  refine ⟨Nat.add_le_add h'.1 h.1, ?_⟩
  rcases h.2 with hl | rfl
  · exact .inl hl
  · exact h'.2.imp_right (congrArg (· + k'))

theorem Recodes.start (h : T.Recodes n p p') (hall : List.Forall₂ (Moved T.rename ι) vs ws)
    (hs : p.start vs = some a) : ∃ a', p'.start ws = some a' ∧ T.Fits n ι a a' := by
  obtain ⟨c, hc, hphis, rfl⟩ := Proc.start_eq_some.mp hs
  obtain ⟨c', hc', hqs, hbody, hexit⟩ := h.code (.inl rfl) hc
  have hphis' : c'.phis = [] := by
    rw [hphis] at hqs
    exact length_eq_zero_iff.mp (Nat.le_zero.mp hqs.length_le.1)
  refine ⟨_, Proc.start_eq_some.mpr ⟨c', h.entry ▸ hc', hphis', rfl⟩, h.entry, hbody, hexit, ?_, ?_⟩
  · rw [h.params]
    exact Coding.Agree.bind hall (fun r _ v hv => by cases hv) fun d hd => (h.bound d hd).1
  · exact Coding.Knows.bind (fun r c _ v hv => by cases hv) fun d hd => (h.bound d hd).2

theorem Recodes.accepts (h : T.Recodes n p p') {m : Nat} (ha : p.accepts m) : p'.accepts m := by
  rw [Proc.accepts, h.params, h.varargs, length_map]
  exact ha

theorem Like.moves (hT : T.Sound) (h : T.Like ι c c') (hc : T.Clear c)
    (hm : Moves T.sourceCells T.source c k d) :
    ∃ κ d' k', T.Like κ d d' ∧ Runs T.targetCells T.target c' k' d' ∧ T.Cost k' k ∧
      ι.Extends κ := by
  obtain ⟨f', ⟨l', rest', t', σ⟩, callers', large⟩ := c'
  obtain ⟨hmem, ⟨n, hn, hl, hrest, hexit, hregs, hknown⟩, hcallers⟩ := h
  cases hm with
  | act ha =>
    cases hrest with
    | @keep _ i' _ is' hi ht =>
      obtain ⟨o', ho', hmo⟩ := hi.acts hmem hregs (hc.imp_right fun h => h _ _ rfl) _ ha
      cases hmo with
      | @plain κ _ w _ large' he hv hm' =>
        have hregs' := (hregs.extend he).put hi.sharp hv
        rw [← hi.dest] at hregs'
        exact ⟨κ, ⟨f', ⟨l', is', t', σ.put i'.dest? w⟩, callers', large'⟩, 1,
          ⟨hm', ⟨n, hn, hl, ht, hexit, hregs', hknown.act hi.sets ha⟩,
            hcallers.imp fun _ _ h => h.extend he⟩, .one (.act ho'), .refl 1, he⟩
    | drop hi ht =>
      obtain ⟨v, small', ho, hm'⟩ := hi.acts hmem ha
      cases ho
      exact ⟨ι, ⟨f', ⟨l', rest', t', σ⟩, callers', large⟩, 0,
        ⟨hm', ⟨n, hn, hl, ht, hexit, hregs.putDead hi.dead _, hknown.act hi.sets ha⟩, hcallers⟩,
        .refl _, ⟨Nat.zero_le 1, .inl hi.lax⟩, .refl ι⟩
  | @call f l i rest t ρ _ _ callee args q b ha hq hargs hdepth hstart =>
    cases hrest with
    | @keep _ i' _ is' hi ht =>
      obtain ⟨o', ho', hmo⟩ := hi.acts hmem hregs (hc.imp_right fun h => h _ _ rfl) _ ha
      cases hmo with
      | call _ hall =>
        obtain ⟨m, q₀, q', hq₀, hq', hrec⟩ := hT.finds hq
        cases hq.symm.trans hq₀
        obtain ⟨b', hb', hfit⟩ := hrec.start hall hstart
        have hsets : ∀ d ∈ i.dest?, n.known d = none := by
          refine hi.sets.known_eq_none ?_
          rintro d c rfl
          cases ha
        have hwait : T.Waits ι ⟨f, ⟨l, rest, t, ρ⟩, i.dest?⟩ ⟨f', ⟨l', is', t', σ⟩, i'.dest?⟩ :=
          ⟨n, hn, ⟨hl, ht, hexit, hregs, hknown⟩, hi.dest, fun d hd => ⟨hi.sharp d hd, hsets d hd⟩⟩
        exact ⟨ι, ⟨T.rename callee, b', ⟨f', ⟨l', is', t', σ⟩, i'.dest?⟩ :: callers', large⟩, 1,
          ⟨hmem, ⟨m, ⟨q, q', hq, hq', hrec⟩, hfit⟩, .cons hwait hcallers⟩,
          .one (.call ho' hq' (hrec.accepts (hall.length_eq ▸ hargs))
            (hcallers.length_eq ▸ hdepth) hb'), .refl 1, .refl ι⟩
    | drop hi ht =>
      obtain ⟨v, small', ho, -⟩ := hi.acts hmem ha
      cases ho
  | @goto _ p _ _ _ _ _ l c vs hf hgoto hcode hvs =>
    cases hrest
    obtain ⟨hgoto', hedge⟩ := (hexit ι _ σ hregs hknown).1 _ hgoto
    obtain ⟨p₀, p', hp, hp', hrec⟩ := hn
    cases hf.symm.trans hp
    obtain ⟨c', hc', hphis, hbody, hexit'⟩ := hrec.code (.inr ⟨_, hedge⟩) hcode
    obtain ⟨ws, hws, hbind⟩ := hphis.incomings hedge hregs hregs hvs
    obtain ⟨hle, heq⟩ := hphis.length_le
    rw [← hl] at hws
    exact ⟨ι, ⟨f', ⟨n.label l, c'.body, c'.exit, Regs.bind (c'.phis.map Phi.dest) ws σ⟩, callers',
        large⟩, c'.phis.length + 1,
      ⟨hmem, ⟨n, ⟨p, p', hp, hp', hrec⟩, rfl, hbody, hexit', hbind, hknown.bind hphis.known⟩,
        hcallers⟩, .one (.goto hp' hgoto' hc' hws),
      ⟨Nat.succ_le_succ hle, heq.imp_right (congrArg Nat.succ)⟩, .refl ι⟩
  | @back _ _ _ _ v w callers memory hback =>
    cases hrest
    obtain ⟨x, hx, hm⟩ := (hexit ι _ σ hregs hknown).2 _ hback
    cases hcallers with
    | @cons _ w' _ callers' hwait hcallers =>
      obtain ⟨m, hm', hfit, hdest, hsharp⟩ := hwait.frame
      have hregs' := hfit.regs.put (fun d hd => (hsharp d hd).1) hm
      rw [← hdest] at hregs'
      exact ⟨ι, ⟨w'.function, w'.frame.resume w'.dest x, callers', large⟩, 1,
        ⟨hmem, ⟨m, hm', hfit.label, hfit.rest, hfit.exit, hregs',
          hfit.known.put (fun d hd => (hsharp d hd).2) _⟩, hcallers⟩,
        .one (.back hx), .refl 1, .refl ι⟩

theorem Like.runs (hT : T.Sound) (h : T.Like ι c c')
    (hc : ∀ k d, Runs T.sourceCells T.source c k d → T.Clear d)
    (hr : Runs T.sourceCells T.source c k d) :
    ∃ κ d' k', T.Like κ d d' ∧ Runs T.targetCells T.target c' k' d' ∧ T.Cost k' k ∧
      ι.Extends κ := by
  induction hr generalizing ι c' with
  | refl c => exact ⟨ι, c', 0, h, .refl c', .refl 0, .refl ι⟩
  | head hm _ ih =>
    obtain ⟨κ, d', k', hlike, hruns, hcost, he⟩ := h.moves hT (hc 0 _ (.refl _)) hm
    obtain ⟨μ, e', m', hlike', hruns', hcost', he'⟩ :=
      ih hlike fun k d hd => hc _ d (.head hm hd)
    exact ⟨μ, e', m' + k', hlike', hruns.trans hruns', hcost.add hcost', he.trans he'⟩

theorem Sound.yields (hT : T.Sound) (hn : T.Finds n f f') {small large : Array Value}
    (hm : T.pairing ι small large) (hall : List.Forall₂ (Moved T.rename ι) vs ws)
    (hc : ∀ p a, T.source f = some p → p.accepts vs.length → p.start vs = some a →
      ∀ k d, Runs T.sourceCells T.source ⟨f, a, [], small⟩ k d → T.Clear d) {small' : Array Value}
    (h : Yields T.sourceCells T.source small f vs v small' k) :
    ∃ κ w large' k', Yields T.targetCells T.target large f' ws w large' k' ∧ T.Cost k' k ∧
      ι.Extends κ ∧ MovedOption T.rename κ v w ∧ T.pairing κ small' large' := by
  obtain ⟨p, a, d, hp, haccepts, hstart, hruns, hends⟩ := h
  obtain ⟨p₀, p', hp₀, hp', hrec⟩ := hn
  cases hp.symm.trans hp₀
  obtain ⟨a', hstart', hfit⟩ := hrec.start hall hstart
  have hlike : T.Like ι ⟨f, a, [], small⟩ ⟨f', a', [], large⟩ :=
    ⟨hm, ⟨n, ⟨p, p', hp, hp', hrec⟩, hfit⟩, .nil⟩
  obtain ⟨κ, ⟨g', ⟨l', rest', t', σ⟩, callers', large'⟩, k', hlike', hruns', hcost, he⟩ :=
    hlike.runs hT (hc p a hp haccepts hstart) hruns
  obtain ⟨hmem, ⟨m, -, hfit'⟩, hcallers⟩ := hlike'
  cases hends with
  | intro hback =>
    obtain ⟨w, hw, hm'⟩ := (hfit'.exit κ _ σ hfit'.regs hfit'.known).2 _ hback
    cases hfit'.rest
    cases hcallers
    exact ⟨κ, w, large', k', ⟨p', a', _, hp', hrec.accepts (hall.length_eq ▸ haccepts), hstart',
      hruns', .intro hw⟩, hcost, he, hm', hmem⟩

variable (T)

def Places (g : GlobalId) : Prop :=
  ∀ c, T.sourceCells.get? g = some c → ∃ d, T.targetCells.get? g = some d ∧
    ∀ {ι small large}, T.pairing ι small large → ι c = some d

variable {T}

theorem Keeps.renamed (hM : T.pairing.Faithful T.rename) {i : Instruction}
    (hg : ∀ g ∈ i.global?, T.Places g) (hr : ∀ o ∈ i.operands, n.Reads o)
    (hs : ∀ d ∈ i.dest?, n.Sharp d) (hset : n.Sets i) :
    T.Keeps n i ((n.instruction i).redirect T.rename) where
  dest := by
    rw [Instruction.dest?_redirect, Duplicates.Renaming.instruction, Instruction.dest?_mapDest,
      Instruction.dest?_mapOperands]
  sharp := hs
  sets := hset
  acts hm hregs hapart := by
    rw [Duplicates.Renaming.instruction, Instruction.redirect_mapDest, act_mapDest]
    refine act_carried hM hm (fun g hg' c hc => ?_) hapart fun o ho => hregs.value (hr o ho)
    obtain ⟨d, hd, hι⟩ := hg g hg' c hc
    exact ⟨d, hd, hι hm⟩

theorem Body.renamed (hM : T.pairing.Faithful T.rename) {is : List Instruction}
    (h : ∀ i ∈ is, (∀ g ∈ i.global?, T.Places g) ∧ (∀ o ∈ i.operands, n.Reads o) ∧
      (∀ d ∈ i.dest?, n.Sharp d) ∧ n.Sets i) :
    T.Body n is (is.map fun i => (n.instruction i).redirect T.rename) := by
  induction is with
  | nil => exact .nil
  | cons i is ih =>
    obtain ⟨hg, hr, hs, hset⟩ := h i mem_cons_self
    exact .keep (.renamed hM hg hr hs hset) (ih fun i hi => h i (mem_cons_of_mem _ hi))

theorem exits_renamed {k : BlockId} {t : Terminator} (hr : ∀ o ∈ t.operands, n.Reads o)
    (he : ∀ l ∈ t.successors, n.edge k l) : T.Exits n k t (n.terminator t) := by
  intro ι ρ σ hregs _
  obtain ⟨hgoto, hback⟩ := leads_carried n.label fun o ho => hregs.value (hr o ho)
  exact ⟨fun l hl => ⟨hgoto l hl, he l (mem_successors_of_goto hl)⟩, hback⟩

section Same

variable (hM : T.pairing.Faithful T.rename) (hn : n.toRenaming = ⟨id, id⟩) (hφ : T.rename = id)

include hn

theorem exits_same {k : BlockId} {t : Terminator} (hr : ∀ o ∈ t.operands, n.Reads o)
    (he : ∀ l ∈ t.successors, n.edge k l) : T.Exits n k t t := by
  have h := exits_renamed (T := T) hr he
  rwa [hn, Duplicates.Renaming.terminator_same] at h

include hM hφ

theorem Keeps.same {i : Instruction} (hg : ∀ g ∈ i.global?, T.Places g)
    (hr : ∀ o ∈ i.operands, n.Reads o) (hs : ∀ d ∈ i.dest?, n.Sharp d) (hset : n.Sets i) :
    T.Keeps n i i := by
  have h := Keeps.renamed hM hg hr hs hset
  rwa [hn, hφ, Duplicates.Renaming.instruction_same, Instruction.redirect_id] at h

theorem Body.same {is : List Instruction}
    (h : ∀ i ∈ is, (∀ g ∈ i.global?, T.Places g) ∧ (∀ o ∈ i.operands, n.Reads o) ∧
      (∀ d ∈ i.dest?, n.Sharp d) ∧ n.Sets i) : T.Body n is is := by
  have h := Body.renamed hM h
  simpa only [hn, hφ, Duplicates.Renaming.instruction_same, Instruction.redirect_id,
    List.map_id'] using h

end Same

theorem Recodes.redirected (hM : T.pairing.Faithful T.rename) (hg : ∀ g, T.Places g) (p : Proc) :
    T.Recodes .all p (p.redirect T.rename) where
  params := (List.map_id p.params).symm
  bound _ _ := ⟨fun _ _ h => h, rfl⟩
  varargs := rfl
  entry := rfl
  code {k c} _ hc := by
    refine ⟨_, congrArg (Option.map _) hc, ?_, ?_, ?_⟩
    · have h : Coding.all.Phis T.lax k c.phis (c.phis.map id) := .map fun q _ =>
        ⟨rfl, fun _ _ h => h, rfl, fun s o _ ho => ⟨?_, fun _ _ => trivial⟩⟩
      · rwa [List.map_id] at h
      · rw [Coding.all, Duplicates.Renaming.operand_same]
        exact ho
    · have h : T.Body .all c.body _ := .renamed hM fun i _ =>
        ⟨fun g _ => hg g, fun _ _ _ _ => trivial, fun _ _ _ _ h => h, fun _ _ _ h => by cases h⟩
      simpa only [Coding.all, Duplicates.Renaming.instruction_same] using h
    · have h := exits_renamed (T := T) (n := .all) (k := k) (t := c.exit) (fun _ _ _ _ => trivial)
        fun _ _ => trivial
      rwa [Coding.all, Duplicates.Renaming.terminator_same] at h

theorem Sound.call (hT : T.Sound) {m m' : Module} (hs : T.source = m.program)
    (ht : T.target = m'.program) {f f' : FuncId}
    (hn : ∀ p, T.source f = some p → ∃ n, T.Finds n f f') {small large : Array Value}
    (hm : T.pairing ι small large) {vs ws : List Value}
    (hall : List.Forall₂ (Moved T.rename ι) vs ws)
    (hc : ∀ p a, T.source f = some p → p.accepts vs.length → p.start vs = some a →
      ∀ k d, Runs T.sourceCells T.source ⟨f, a, [], small⟩ k d → T.Clear d)
    {budget : Nat} {r : Machine} {v : Option Value}
    (h : Machine.call ⟨m, T.sourceCells, small, budget⟩ f vs = (r, .ok v)) :
    ∃ κ w large' left, Machine.call ⟨m', T.targetCells, large, budget⟩ f' ws =
        (⟨m', T.targetCells, large', left⟩, .ok w) ∧ r.budget ≤ left ∧
      (T.lax ∨ left = r.budget) ∧ ι.Extends κ ∧ MovedOption T.rename κ v w ∧
      T.pairing κ r.memory large' := by
  obtain ⟨small', left, hr⟩ := Machine.exists_call_fst ⟨m, T.sourceCells, small, budget⟩ f vs
  rw [h] at hr
  cases hr
  obtain ⟨k, hyields, hbudget⟩ := Machine.call_eq_ok_iff.mp h
  rw [← hs] at hyields
  obtain ⟨p, _, _, hp, _⟩ := id hyields
  obtain ⟨n, hn⟩ := hn p hp
  obtain ⟨κ, w, large', k', hyields', hcost, he, hv, hmem⟩ := hT.yields hn hm hall hc hyields
  rw [ht] at hyields'
  have hle := hcost.1
  refine ⟨κ, w, large', budget - (k' + 1), Machine.call_eq_ok_iff.mpr ⟨k', hyields', by omega⟩,
    by dsimp only; omega, hcost.2.imp_right fun hk => by dsimp only; omega, he, hv, hmem⟩

theorem Sound.call_exact (hT : T.Sound) {m m' : Module} (hs : T.source = m.program)
    (ht : T.target = m'.program) (hM : T.pairing = .exact T.rename) (hlax : ¬ T.lax)
    (hn : ∀ p, T.source f = some p → ∃ n, T.Finds n f f') {memory : Array Value}
    (hc : ∀ p a, T.source f = some p → p.accepts vs.length → p.start vs = some a →
      ∀ k d, Runs T.sourceCells T.source ⟨f, a, [], memory⟩ k d → T.Clear d) {budget : Nat}
    {r : Machine} (h : Machine.call ⟨m, T.sourceCells, memory, budget⟩ f vs = (r, .ok v)) :
    Machine.call ⟨m', T.targetCells, memory.map (Value.redirect T.rename), budget⟩ f'
        (vs.map (Value.redirect T.rename)) =
      (⟨m', T.targetCells, r.memory.map (Value.redirect T.rename), r.budget⟩,
        .ok (v.map (Value.redirect T.rename))) := by
  have hmem : T.pairing some memory (memory.map (Value.redirect T.rename)) := by
    rw [hM]
    exact ⟨rfl, rfl⟩
  have hall : List.Forall₂ (Moved T.rename some) vs (vs.map (Value.redirect T.rename)) :=
    forall₂_map_right_iff.mpr (forall₂_same.mpr fun v _ => moved_redirect v)
  obtain ⟨κ, w, large, left, hres, -, hleft, -, hw, hmem'⟩ := hT.call hs ht hn hmem hall hc h
  rw [hM] at hmem'
  obtain ⟨rfl, rfl⟩ := hmem'
  rw [hres, hw.eq_redirect, hleft.resolve_left hlax]

def replace (m : Module) (key : FuncId) (g : Function) (cells : Table GlobalId Nat) (M : Pairing)
    (lax : Prop) : Translation :=
  ⟨m.program, (m.setFunction key g).program, cells, cells, id, M, lax⟩

section Replace

variable {m : Module} {key : FuncId} {f g : Function} {cells : Table GlobalId Nat} {M : Pairing}
  {lax : Prop}

theorem sound_replace (hM : M.Faithful id)
    (hcells : ∀ v c, cells.get? v = some c → ∀ {ι small large}, M ι small large → ι c = some c)
    (hf : m.function? key = some f) (hd : g.isDeclaration = f.isDeclaration)
    (hn : f.isDeclaration = false → (replace m key g cells M lax).Recodes n f.proc g.proc) :
    (replace m key g cells M lax).Sound := by
  refine ⟨hM, fun {j p} hp => ?_⟩
  by_cases hj : j = key
  · subst hj
    have hbody : f.isDeclaration = false := by
      cases h : f.isDeclaration with
      | false => rfl
      | true => simp [Translation.replace, Module.program, hf, h] at hp
    refine ⟨n, f.proc, g.proc, ?_, ?_, hn hbody⟩
    · simp [Translation.replace, Module.program, hf, hbody]
    · simp [Translation.replace, Module.program, Module.function?_setFunction_self hf, hd, hbody]
  · refine ⟨.all, p, p, hp, ?_, ?_⟩
    · have hfun := Module.function?_setFunction m key j g
      rw [if_neg hj] at hfun
      rw [← hp]
      simp only [Translation.replace, Module.program, id, hfun]
    · have h := Recodes.redirected (T := Translation.replace m key g cells M lax) hM
        (fun v c hc => ⟨c, hc, fun hm => hcells v c hc hm⟩) p
      rwa [show (Translation.replace m key g cells M lax).rename = id from rfl,
        Proc.redirect_id] at h

theorem Sound.call_same (hT : (replace m key g cells (.exact id) False).Sound)
    {memory : Array Value} {budget : Nat} {callee : FuncId} {args : List Value} {r : Machine}
    {v : Option Value} (h : Machine.call ⟨m, cells, memory, budget⟩ callee args = (r, .ok v)) :
    Machine.call ⟨m.setFunction key g, cells, memory, budget⟩ callee args =
      ({ r with module := m.setFunction key g }, .ok v) := by
  have hcall := hT.call_exact rfl rfl rfl id (fun p hp => hT.finds hp)
    (fun _ _ _ _ _ _ _ _ => .inl rfl) h
  obtain ⟨_, _, hr⟩ := Machine.exists_call_fst ⟨m, cells, memory, budget⟩ callee args
  rw [h] at hr
  cases hr
  simpa only [Translation.replace, Value.redirect_id_eq, Array.map_id, List.map_id, Option.map_id,
    id] using hcall

end Replace

end Translation

end SiteFusion
