import Mathlib.Logic.Relation
import SiteFusion.Proofs.InlinedRuns

namespace SiteFusion

open List Option

variable {cell : Option Reg} {x y : Option Value} {τ : Regs} {ι κ : Placing}

theorem forall_mem_some {d : Reg} : (∀ r ∈ some d, cell ≠ some r) ↔ cell ≠ some d :=
  ⟨fun h => h d rfl, by rintro h _ ⟨⟩; exact h⟩

namespace Regs

/-- Registers of which the one that points to the cell, if there is one, has another value. -/
def pin (τ : Regs) (cell : Option Reg) (x : Option Value) : Regs := fun r =>
  if cell = some r then x else τ r

def Hides (τ : Regs) (cell : Option Reg) : Prop := ∀ w ∈ cell, τ w = none

theorem pin_of_ne {r : Reg} (h : cell ≠ some r) : τ.pin cell x r = τ r := if_neg h

theorem put_pin {d : Option Reg} (h : ∀ r ∈ d, cell ≠ some r) (v : Option Value) :
    (τ.pin cell x).put d v = (τ.put d v).pin cell x := by
  cases d with
  | none => rfl
  | some d =>
    funext r
    by_cases hr : r = d
    · subst hr
      rw [put_self, pin_of_ne (h r rfl), put_self]
    · have hne : some d ≠ some r := fun he => hr (Option.some.inj he).symm
      rw [put_of_ne hne, pin, pin, put_of_ne hne]

theorem put_pin_self (w : Reg) (v : Value) :
    (τ.pin (some w) x).put (some w) (some v) = τ.pin (some w) (some v) := by
  funext r
  by_cases hr : r = w
  · subst hr
    rw [put_self, pin, if_pos rfl, getD_some]
  · have hne : some w ≠ some r := fun he => hr (Option.some.inj he).symm
    rw [put_of_ne hne, pin_of_ne hne, pin_of_ne hne]

theorem bind_pin {ds : List Reg} (h : ∀ r ∈ ds, cell ≠ some r) (vs : List Value) :
    Regs.bind ds vs (τ.pin cell x) = (Regs.bind ds vs τ).pin cell x := by
  induction ds generalizing vs τ with
  | nil => rfl
  | cons d ds ih =>
    cases vs with
    | nil => rfl
    | cons v vs =>
      obtain ⟨hd, hds⟩ := forall_mem_cons.mp h
      rw [Regs.bind, put_pin (forall_mem_some.mpr hd), ih hds]
      rfl

theorem Hides.pin (h : τ.Hides cell) : τ.pin cell none = τ := by
  funext r
  unfold Regs.pin
  split
  · next hr => exact (h r hr).symm
  · rfl

theorem Hides.value (h : τ.Hides cell) {o : Operand} {v : Value} (hv : τ.value o = some v) :
    (τ.pin cell x).value o = some v := by
  cases o with
  | const c => exact hv
  | reg r =>
    have hne : cell ≠ some r := fun hr => some_ne_none v (hv.symm.trans (h r hr))
    exact (pin_of_ne hne).trans hv

theorem Hides.carried (h : τ.Hides cell) {o : Operand} {z : Option Value}
    (hv : Carried id ι z (τ.value o)) : Carried id ι z ((τ.pin cell x).value o) := by
  intro v hz
  obtain ⟨v', hv', hm⟩ := hv v hz
  exact ⟨v', h.value hv', hm⟩

theorem Hides.put (h : τ.Hides cell) {d : Option Reg} (hd : ∀ r ∈ d, cell ≠ some r)
    (v : Option Value) : (τ.put d v).Hides cell := by
  intro w hw
  rw [← h.pin, put_pin hd]
  exact if_pos hw

theorem Hides.bind (h : τ.Hides cell) {ds : List Reg} (hd : ∀ r ∈ ds, cell ≠ some r)
    (vs : List Value) : (Regs.bind ds vs τ).Hides cell := by
  intro w hw
  rw [← h.pin, bind_pin hd]
  exact if_pos hw

theorem Hides.incomings (h : τ.Hides cell) {l : BlockId} {phis : List Phi} {vs : List Value}
    (hvs : incomings τ l phis = some vs) : incomings (τ.pin cell x) l phis = some vs := by
  induction phis generalizing vs with
  | nil => exact hvs
  | cons p phis ih =>
    obtain ⟨v, ws, hv, hws, rfl⟩ := incomings_cons.mp hvs
    obtain ⟨o, ho, hv⟩ := bind_eq_some_iff.mp hv
    exact incomings_cons.mpr ⟨v, ws, bind_eq_some_iff.mpr ⟨o, ho, h.value hv⟩, ih hws, rfl⟩

end Regs

def Frame.pin (b : Frame) (cell : Option Reg) (x : Option Value) : Frame :=
  { b with regs := b.regs.pin cell x }

/-- A move of a function that is about its cell only. Beside the frame there is what the cell holds,
once it is allocated, and the frame shows no pointer to it. -/
inductive Silent (cell : Option Reg) : Frame × Option Value → Frame × Option Value → Prop
  | alloca {w l rest t τ ty} (hw : cell = some w) :
    Silent cell (⟨l, .alloca w ty :: rest, t, τ⟩, none) (⟨l, rest, t, τ⟩, some (.ofConst ty.zero))
  | store {w l rest t τ o v y} (hw : cell = some w) (hv : τ.value o = some v) :
    Silent cell (⟨l, .store (.reg w) o :: rest, t, τ⟩, some y) (⟨l, rest, t, τ⟩, some v)
  | load {w l r rest t τ ty y} (hw : cell = some w) (hr : cell ≠ some r) :
    Silent cell (⟨l, .load r (.reg w) ty :: rest, t, τ⟩, some y)
      (⟨l, rest, t, τ.put (some r) (some y)⟩, some y)

abbrev Silents (cell : Option Reg) : Frame × Option Value → Frame × Option Value → Prop :=
  Relation.ReflTransGen (Silent cell)

namespace Ledger

/-- The register of the cell points to it, in the frame with `n` frames below it. -/
def Holds (B : Ledger) (n : Nat) (cell : Option Reg) (y x : Option Value) : Prop :=
  ∀ w ∈ cell, ∀ v ∈ y, ∃ h, x = some (.ptr h) ∧ B h = some ⟨n, w, v⟩

/-- Memories that are the same but for the cells that are added to the second. -/
abbrev Adds (B : Ledger) (ι₀ : Placing) : Pairing := (Pairs (fun _ => none) B).onto ι₀

variable {B B' B'' : Ledger} {n k : Nat}

theorem Holds.keeps (h : B.Holds n cell y x) (hk : B.Keeps k B') (hn : n < k) :
    B'.Holds n cell y x := by
  intro w hw v hv
  obtain ⟨c, hx, hc⟩ := h w hw v hv
  exact ⟨c, hx, hk c _ hc hn⟩

theorem Keeps.trans (h : B.Keeps n B') (h' : B'.Keeps n B'') : B.Keeps n B'' := fun c e hc he =>
  h' c e (h c e hc he) he

end Ledger

section Silent

variable {cells : Table GlobalId Nat} {E : Program} {f : FuncId} {ws : List Waiting} {B : Ledger}
  {ι₀ : Placing} {small large : Array Value} {s s' : Frame × Option Value}

theorem Silent.hides (h : Silent cell s s') (hs : s.1.regs.Hides cell) : s'.1.regs.Hides cell := by
  cases h with
  | alloca hw => exact hs
  | store hw hv => exact hs
  | load hw hr => exact hs.put (forall_mem_some.mpr hr) _

/-- What is done with a cell is done in memory, where nothing else changes. -/
theorem Silent.runs (h : Silent cell s s') (hs : s.1.regs.Hides cell)
    (hx : B.Holds ws.length cell s.2 x) (hm : B.Adds ι₀ ι small large) :
    ∃ B' x' large' m, Runs cells E ⟨f, s.1.pin cell x, ws, large⟩ m
        ⟨f, s'.1.pin cell x', ws, large'⟩ ∧ B.Keeps ws.length B' ∧
      B'.Holds ws.length cell s'.2 x' ∧ B'.Adds ι₀ ι small large' := by
  cases h with
  | @alloca w l rest t τ ty hw =>
    subst hw
    obtain ⟨hnone, hpairs⟩ := hm.1.pushThere ⟨ws.length, w, .ofConst ty.zero⟩
    have hmove : Moves cells E ⟨f, ⟨l, .alloca w ty :: rest, t, τ.pin (some w) x⟩, ws, large⟩ _ _ :=
      .act rfl
    rw [show (Instruction.alloca w ty).dest? = some w from rfl, Regs.put_pin_self] at hmove
    refine ⟨_, some (.ptr large.size), _, 1, .one hmove, Ledger.keeps_update (fun e he => ?_) _,
      ?_, hpairs, hm.2⟩
    · rw [hnone] at he
      cases he
    · rintro w' ⟨⟩ v ⟨⟩
      exact ⟨large.size, rfl, Function.update_self ..⟩
  | @store w l rest t τ o v y hw hv =>
    subst hw
    obtain ⟨c, rfl, hc⟩ := hx w rfl y rfl
    have hlt := (hm.1.there c _ hc).2.lt
    have hact : act cells (τ.pin (some w) (some (.ptr c))) large (.store (.reg w) o) =
        some (.plain none (large.setIfInBounds c v)) := by
      simp [act, hs.value hv, Regs.pin, Machine.cell, hlt, Except.toOption]
    refine ⟨_, some (.ptr c), _, 1, .one (.act hact), Ledger.keeps_update (fun e he => ?_) _, ?_,
      hm.1.setThere (x := ⟨ws.length, w, v⟩) hc rfl, hm.2⟩
    · cases hc.symm.trans he
      exact Nat.le_refl _
    · rintro w' ⟨⟩ v' ⟨⟩
      exact ⟨c, rfl, Function.update_self ..⟩
  | @load w l r rest t τ ty y hw hr =>
    subst hw
    obtain ⟨c, rfl, hc⟩ := hx w rfl y rfl
    obtain ⟨-, v, hv, rfl⟩ := hm.1.there c _ hc
    have hlt := (Array.getElem?_eq_some_iff.mp hv).1
    have hact : act cells (τ.pin (some w) (some (.ptr c))) large (.load r (.reg w) ty) =
        some (.plain (some v) large) := by
      have hload : Machine.loaded large c = v := by rw [Machine.loaded, hv, getD_some]
      simp [act, Regs.pin, Machine.cell, hlt, Except.toOption, hload]
    have hmove : Moves cells E ⟨f, ⟨l, .load r (.reg w) ty :: rest, t, _⟩, ws, large⟩ _ _ := .act hact
    rw [show (Instruction.load r (.reg w) ty).dest? = some r from rfl,
      Regs.put_pin (forall_mem_some.mpr hr)] at hmove
    exact ⟨B, some (.ptr c), large, 1, .one hmove, .refl _ B, hx, hm⟩

theorem Silents.runs (h : Silents cell s s') (hs : s.1.regs.Hides cell)
    (hx : B.Holds ws.length cell s.2 x) (hm : B.Adds ι₀ ι small large) :
    ∃ B' x' large' m, Runs cells E ⟨f, s.1.pin cell x, ws, large⟩ m
        ⟨f, s'.1.pin cell x', ws, large'⟩ ∧ B.Keeps ws.length B' ∧
      B'.Holds ws.length cell s'.2 x' ∧ B'.Adds ι₀ ι small large' ∧ s'.1.regs.Hides cell := by
  induction h with
  | refl => exact ⟨B, x, large, 0, .refl _, .refl _ B, hx, hm, hs⟩
  | tail _ h ih =>
    obtain ⟨B₁, x₁, large₁, m₁, hr₁, hk₁, hx₁, hm₁, hs₁⟩ := ih
    obtain ⟨B₂, x₂, large₂, m₂, hr₂, hk₂, hx₂, hm₂⟩ := h.runs hs₁ hx₁ hm₁
    exact ⟨B₂, x₂, large₂, m₂ + m₁, hr₁.trans hr₂, hk₁.trans hk₂, hx₂, hm₂, h.hides hs₁⟩

end Silent

/-- How frames of a function go with frames of another, which has a cell, and with what it holds. -/
abbrev Link := Placing → Frame → Frame → Option Value → Prop

theorem mapTargets_id (t : Terminator) : t.mapTargets id = t := by
  cases t <;> simp [Terminator.mapTargets]

theorem incomings_same {ρ : Regs} {l : BlockId} {phis : List Phi} {vs : List Value}
    (h : Coding.all.Agree id ι ρ τ) (hvs : incomings ρ l phis = some vs) :
    ∃ us, incomings τ l phis = some us ∧ List.Forall₂ (Moved id ι) vs us := by
  have hsame := incomings_moved (h := id) (fun q _ o ho => ⟨o, ho, Inlining.value_same h o⟩) hvs
  rwa [List.map_id] at hsame

namespace Link

def After (R : Link) (cell : Option Reg) : Link := fun ι a b y =>
  ∃ s, Silents cell (b, y) s ∧ R ι a s.1 s.2

inductive same : Link
  | intro {ι l r t ρ τ y} (h : Coding.all.Agree id ι ρ τ) : same ι ⟨l, r, t, ρ⟩ ⟨l, r, t, τ⟩ y

/-- The function `p'` does what `p` does, and works on its cell between. -/
structure Follows (R : Link) (cell : Option Reg) (p p' : Proc) : Prop where
  params : p'.params = p.params
  varargs : p'.varargs = p.varargs
  hides : ∀ {ι a b y}, R ι a b y → b.regs.Hides cell
  start : ∀ {ι vs us a}, p.start vs = some a → p.accepts vs.length →
    List.Forall₂ (Moved id ι) vs us → ∃ b, p'.start us = some b ∧ R ι a b none
  act : ∀ {ι l i r t ρ b y}, R ι ⟨l, i :: r, t, ρ⟩ b y → ∃ h r' τ y',
    Silents cell (b, y) (⟨b.label, i.mapOperands h :: r', b.exit, τ⟩, y') ∧
    (∀ d ∈ i.dest?, cell ≠ some d) ∧
    (∀ o ∈ i.operands, Carried id ι (ρ.value o) (τ.value (h o))) ∧
    ∀ {κ v v'}, ι.Extends κ → MovedOption id κ v v' →
      R.After cell κ ⟨l, r, t, ρ.put i.dest? v⟩ ⟨b.label, r', b.exit, τ.put i.dest? v'⟩ y'
  leave : ∀ {ι l t ρ b y}, R ι ⟨l, [], t, ρ⟩ b y → ∃ h τ y',
    Silents cell (b, y) (⟨l, [], t.mapOperands h, τ⟩, y') ∧
    (∀ o ∈ t.operands, Carried id ι (ρ.value o) (τ.value (h o))) ∧
    ∀ {l' c vs}, l' ∈ t.successors → p.code l' = some c → incomings ρ l c.phis = some vs →
      ∃ c' us, p'.code l' = some c' ∧ incomings τ l c'.phis = some us ∧
        (∀ d ∈ c'.phis.map Phi.dest, cell ≠ some d) ∧
        R.After cell ι ⟨l', c.body, c.exit, Regs.bind (c.phis.map Phi.dest) vs ρ⟩
          ⟨l', c'.body, c'.exit, Regs.bind (c'.phis.map Phi.dest) us τ⟩ y'

theorem follows_same (p : Proc) : same.Follows none p p where
  params := rfl
  varargs := rfl
  hides _ _ hw := by cases hw
  start hs _ hall := by
    obtain ⟨c, hc, hphis, rfl⟩ := Proc.start_eq_some.mp hs
    refine ⟨_, Proc.start_eq_some.mpr ⟨c, hc, hphis, rfl⟩, .intro (agree_bind ?_ hall)⟩
    exact fun _ _ _ h => by cases h
  act := by
    intro ι l i r t ρ b y h
    cases h with
    | @intro _ _ _ _ _ τ _ h =>
      refine ⟨id, r, τ, y, ?_, fun _ _ => nofun, fun o _ => Inlining.value_same h o, fun he hm => ?_⟩
      · rw [Instruction.mapOperands_id]
      · exact ⟨_, .refl, .intro (agree_put (h.extend he) hm)⟩
  leave := by
    intro ι l t ρ b y h
    cases h with
    | @intro _ _ _ _ _ τ _ h =>
      refine ⟨id, τ, y, ?_, fun o _ => Inlining.value_same h o, fun {l' c vs} _ hc hvs => ?_⟩
      · rw [Terminator.mapOperands_id]
      · obtain ⟨us, hus, hall⟩ := incomings_same h hvs
        exact ⟨c, us, hc, hus, fun _ _ => nofun, _, .refl, .intro (agree_bind h hall)⟩

end Link

/-- Two programs, and how the frames of their functions go together. -/
structure Scheme where
  source : Program
  target : Program
  cell : FuncId → Option Reg
  link : FuncId → Link
  follows : ∀ {f p}, source f = some p → ∃ p', target f = some p' ∧ (link f).Follows (cell f) p p'

namespace Scheme

/-- The frames that wait. -/
inductive Stack (S : Scheme) (B : Ledger) (ι : Placing) : List Waiting → List Waiting → Prop
  | nil : Stack S B ι [] []
  | cons {f p d y x ws ws'} {a b : Frame} (hp : S.source f = some p)
      (h : ∀ {κ v v'}, ι.Extends κ → MovedOption id κ v v' →
        (S.link f).After (S.cell f) κ (a.resume d v) (b.resume d v') y)
      (hb : b.regs.Hides (S.cell f)) (hd : ∀ r ∈ d, S.cell f ≠ some r)
      (hx : B.Holds ws'.length (S.cell f) y x) (hs : Stack S B ι ws ws') :
    Stack S B ι (⟨f, a, d⟩ :: ws) (⟨f, b.pin (S.cell f) x, d⟩ :: ws')

/-- The same point of a run. -/
inductive Like (S : Scheme) (ι₀ : Placing) : Config → Config → Prop
  | intro {B : Ledger} {ι f p a y x ws ws' small large} {b : Frame} (hp : S.source f = some p)
      (h : (S.link f).After (S.cell f) ι a b y) (hb : b.regs.Hides (S.cell f))
      (hx : B.Holds ws'.length (S.cell f) y x) (hs : S.Stack B ι ws ws')
      (hm : B.Adds ι₀ ι small large) :
    Like S ι₀ ⟨f, a, ws, small⟩ ⟨f, b.pin (S.cell f) x, ws', large⟩

variable {S : Scheme} {B B' : Ledger} {ι₀ : Placing} {ws ws' : List Waiting} {f : FuncId}
  {cells : Table GlobalId Nat} {c d c' : Config} {k n : Nat} {p : Proc} {a : Frame}

theorem Stack.extend (h : S.Stack B ι ws ws') (he : ι.Extends κ) (hB : B.Keeps ws'.length B') :
    S.Stack B' κ ws ws' := by
  induction h with
  | nil => exact .nil
  | cons hp h hb hd hx _ ih =>
    refine .cons hp (fun he' hm => h (he.trans he') hm) hb hd (hx.keeps hB (Nat.lt_succ_self _)) ?_
    exact ih (hB.mono (Nat.le_succ _))

theorem Stack.length_eq (h : S.Stack B ι ws ws') : ws'.length = ws.length := by
  induction h with
  | nil => rfl
  | cons _ _ _ _ _ _ ih => rw [length_cons, length_cons, ih]

/-- The point of a run with the cell as it should be. -/
theorem Like.settle (h : S.Like ι₀ c c') (cells : Table GlobalId Nat) :
    ∃ B ι f p a b y x ws ws' small large m, c = ⟨f, a, ws, small⟩ ∧ S.source f = some p ∧
      Runs cells S.target c' m ⟨f, b.pin (S.cell f) x, ws', large⟩ ∧ S.link f ι a b y ∧
      B.Holds ws'.length (S.cell f) y x ∧ S.Stack B ι ws ws' ∧ B.Adds ι₀ ι small large := by
  cases h with
  | intro hp h hb hx hs hm =>
    obtain ⟨s, hsil, hl⟩ := h
    obtain ⟨B', x', large', m, hr, hk, hx', hm', -⟩ := hsil.runs hb hx hm
    exact ⟨B', _, _, _, _, _, _, x', _, _, _, large', m, rfl, hp, hr, hl, hx',
      hs.extend (.refl _) hk, hm'⟩

theorem opens (hf : S.source f = some p) {vs us : List Value} (ha : p.accepts vs.length)
    (hs : p.start vs = some a) (hall : List.Forall₂ (Moved id ι) vs us) :
    ∃ p' b, S.target f = some p' ∧ p'.accepts us.length ∧ p'.start us = some b ∧
      S.link f ι a b none ∧ b.regs.Hides (S.cell f) := by
  obtain ⟨p', hf', hR⟩ := S.follows hf
  obtain ⟨b, hs', hl⟩ := hR.start hs ha hall
  refine ⟨p', b, hf', ?_, hs', hl, hR.hides hl⟩
  rw [Proc.accepts, hR.params, hR.varargs, ← hall.length_eq]
  exact ha

theorem moves (hι : ∀ g c, cells.get? g = some c → ι₀ c = some c) (hl : S.Like ι₀ c c')
    (h : Moves cells S.source c k d) :
    ∃ d' m, Runs cells S.target c' m d' ∧ S.Like ι₀ d d' := by
  obtain ⟨B, ι, f, p, a, b, y, x, ws, ws', small, large, m, rfl, hp, hr, hR₀, hx, hs, hm⟩ :=
    hl.settle cells
  obtain ⟨p', hp', hR⟩ := S.follows hp
  have hb := hR.hides hR₀
  cases h with
  | @act _ l i r t ρ _ _ v small' ha =>
    obtain ⟨h, r', τ, y', hsil, hdest, hops, hnext⟩ := hR.act hR₀
    obtain ⟨B₁, x₁, large₁, m₁, hr₁, hk₁, hx₁, hm₁, hτ⟩ := hsil.runs hb hx hm
    -- With the cell in order the instruction does what it did.
    obtain ⟨o', ho', hmo⟩ := Inlining.acts hι hm₁ (fun o ho => hτ.carried (hops o ho)) _ ha
    cases hmo with
    | plain he hv hm' =>
      have hmove := (hr.trans hr₁).trans (.one (.act ho'))
      rw [Instruction.dest?_mapOperands, Regs.put_pin hdest] at hmove
      exact ⟨_, _, hmove, .intro hp (hnext he hv) (hτ.put hdest _) hx₁ (hs.extend he hk₁) hm'⟩
  | @call _ l i r t ρ _ _ callee args q a' ha hq hn hd hs' =>
    obtain ⟨h, r', τ, y', hsil, hdest, hops, hnext⟩ := hR.act hR₀
    obtain ⟨B₁, x₁, large₁, m₁, hr₁, hk₁, hx₁, hm₁, hτ⟩ := hsil.runs hb hx hm
    obtain ⟨o', ho', hmo⟩ := Inlining.acts hι hm₁ (fun o ho => hτ.carried (hops o ho)) _ ha
    cases hmo with
    | call _ hall =>
      obtain ⟨q', b', hq', hn', hb', hl', hhide⟩ := opens hq hn hs' hall
      rw [← hs.length_eq] at hd
      have hmove := (hr.trans hr₁).trans (.one (.call ho' hq' hn' hd hb'))
      rw [Instruction.dest?_mapOperands] at hmove
      have hstack : S.Stack B₁ ι (⟨f, ⟨l, r, t, ρ⟩, i.dest?⟩ :: ws)
          (⟨f, Frame.pin ⟨b.label, r', b.exit, τ⟩ (S.cell f) x₁, i.dest?⟩ :: ws') :=
        .cons hp hnext hτ hdest hx₁ (hs.extend (.refl _) hk₁)
      have hlike := Like.intro (x := none) hq ⟨_, .refl, hl'⟩ hhide (fun _ _ _ hv => by cases hv)
        hstack hm₁
      rw [Frame.pin, hhide.pin] at hlike
      exact ⟨_, _, hmove, hlike⟩
  | @goto _ _ l t ρ _ _ l' c vs hq hlead hc hvs =>
    cases hp.symm.trans hq
    obtain ⟨h, τ, y', hsil, hops, hnext⟩ := hR.leave hR₀
    obtain ⟨B₁, x₁, large₁, m₁, hr₁, hk₁, hx₁, hm₁, hτ⟩ := hsil.runs hb hx hm
    obtain ⟨c', us, hc', hus, hdest, hafter⟩ := hnext (mem_successors_of_goto hlead) hc hvs
    have hlead' := (leads_carried id fun o ho => hτ.carried (x := x₁) (hops o ho)).1 l' hlead
    rw [mapTargets_id] at hlead'
    have hmove := (hr.trans hr₁).trans (.one (.goto hp' hlead' hc' (hτ.incomings hus)))
    rw [Regs.bind_pin hdest] at hmove
    exact ⟨_, _, hmove, .intro hp hafter (hτ.bind hdest _) hx₁ (hs.extend (.refl _) hk₁) hm₁⟩
  | @back _ l t ρ v w ws _ hlead =>
    obtain ⟨h, τ, y', hsil, hops, hnext⟩ := hR.leave hR₀
    obtain ⟨B₁, x₁, large₁, m₁, hr₁, hk₁, hx₁, hm₁, hτ⟩ := hsil.runs hb hx hm
    obtain ⟨v', hlead', hv⟩ := (leads_carried id fun o ho => hτ.carried (x := x₁) (hops o ho)).2 v hlead
    rw [mapTargets_id] at hlead'
    cases hs.extend (.refl _) hk₁ with
    | @cons f₂ _ d _ x₂ _ _ _ b₂ hp₂ hnext₂ hb₂ hd₂ hx₂ hs₂ =>
      have hmove := (hr.trans hr₁).trans (.one (.back hlead'))
      rw [show (b₂.pin (S.cell f₂) x₂).resume d v' = (b₂.resume d v').pin (S.cell f₂) x₂ from
        congrArg _ (Regs.put_pin hd₂ v')] at hmove
      exact ⟨_, _, hmove, .intro hp₂ (hnext₂ (.refl _) hv) (hb₂.put hd₂ v') hx₂ hs₂ hm₁⟩

theorem ends {v : Option Value} {memory : Array Value} (hl : S.Like ι₀ c c') (h : Ends c v memory) :
    ∃ d' m ι w large, Runs cells S.target c' m d' ∧ Ends d' w large ∧ MovedOption id ι v w ∧
      Pairing.onto (.Partial id) ι₀ ι memory large := by
  obtain ⟨B, ι, f, p, a, b, y, x, ws, ws', small, large, m, rfl, hp, hr, hR₀, hx, hs, hm⟩ :=
    hl.settle cells
  obtain ⟨p', hp', hR⟩ := S.follows hp
  cases h with
  | intro hlead =>
    cases hs
    obtain ⟨h, τ, y', hsil, hops, -⟩ := hR.leave hR₀
    obtain ⟨B₁, x₁, large₁, m₁, hr₁, -, -, hm₁, hτ⟩ := hsil.runs (hR.hides hR₀) hx hm
    obtain ⟨w, hlead', hv⟩ := (leads_carried id fun o ho => hτ.carried (x := x₁) (hops o ho)).2 v hlead
    rw [mapTargets_id] at hlead'
    exact ⟨_, _, ι, w, large₁, hr.trans hr₁, .intro hlead', hv, hm₁.1.shared, hm₁.2⟩

theorem yields (S : Scheme) (hι : ∀ g c, cells.get? g = some c → ι₀ c = some c)
    {memory memory' : Array Value} (hm : Pairing.onto (.Partial id) ι₀ ι₀ memory memory)
    {args : List Value} {v : Option Value} (hargs : List.Forall₂ (Moved id ι₀) args args)
    (h : Yields cells S.source memory f args v memory' n) :
    ∃ ι w large n', Yields cells S.target memory f args w large n' ∧ MovedOption id ι v w ∧
      Pairing.onto (.Partial id) ι₀ ι memory' large := by
  obtain ⟨p, a, e, hf, ha, hs, hruns, hends⟩ := h
  obtain ⟨p', b, hf', ha', hs', hl, hhide⟩ := opens hf ha hs hargs
  have hlike : S.Like ι₀ ⟨f, a, [], memory⟩ ⟨f, b.pin (S.cell f) none, [], memory⟩ := by
    refine .intro (B := fun _ => none) hf ⟨_, .refl, hl⟩ hhide (fun _ _ _ hv => by cases hv) .nil
      ⟨⟨hm.1, ?_, ?_⟩, .refl _⟩
    · exact fun _ _ h => by cases h
    · exact fun _ _ h => by cases h
  rw [Frame.pin, hhide.pin] at hlike
  obtain ⟨e₁, m₁, hruns₁, hlike₁⟩ := Runs.simulate (moves hι) hlike hruns
  obtain ⟨e₂, m₂, ι, w, large, hruns₂, hends₂, hmo, hmem⟩ := ends hlike₁ hends
  exact ⟨ι, w, large, _, ⟨p', b, e₂, hf', ha', hs', hruns₁.trans hruns₂, hends₂⟩, hmo, hmem⟩

end Scheme

end SiteFusion
