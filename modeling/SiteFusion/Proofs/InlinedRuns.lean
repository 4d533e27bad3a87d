import SiteFusion.Proofs.InlinedFrames

namespace SiteFusion

open List Option

open Inline

namespace Graft

def turn (G : Graft) (l : BlockId) : BlockId := if l = G.block then G.tail else l

/-- What is left of a block of the function `f`, here and there. -/
inductive Text (G : Graft) (k : FuncId) (p q : Proc) (f : FuncId) :
    BlockId → List Instruction → Terminator → BlockId → List Instruction → Terminator → Prop
  | other {l r t} (hf : f ≠ k) : Text G k p q f l r t l r t
  | same {l r} {c : Code} (hf : f = k) (hc : p.code l = some c) :
    Text G k p q f l r c.exit (G.turn l) r c.exit
  | cut {r} (hf : f = k) : Text G k p q f G.block (r ++ .call G.dest G.callee G.args :: G.after)
      G.exit G.block r (.branch (G.names.label q.entry))

/-- A frame of the function `f`. The allocations of the callee are made after those that the caller
starts with, and may be due now. -/
inductive Fits (G : Graft) (k : FuncId) (p q : Proc) (due : Prop) (B : Ledger) (n : Nat)
    (ι : Placing) (f : FuncId) : Frame → Frame → Prop
  | ready {l r t ρ l' r' t' σ} (ht : G.Text k p q f l r t l' r' t')
      (hd : f = k → ∀ i ∈ r, ∀ d ∈ i.dest?, G.Own q d)
      (hr : G.Outer k q q.allocas B n ι f ρ σ) :
    Fits G k p q due B n ι f ⟨l, r, t, ρ⟩ ⟨l', r', t', σ⟩
  | opening {l r t ρ l' xs rest t' σ} (hf : f = k) (hxs : ∀ i ∈ xs, i.isAlloca = true)
      (hdue : xs = [] → due) (ht : G.Text k p q f l r t l' (xs ++ rest) t')
      (hd : f = k → ∀ i ∈ r, ∀ d ∈ i.dest?, G.Own q d) (hr : G.Outer k q [] B n ι f ρ σ) :
    Fits G k p q due B n ι f ⟨l, r, t, ρ⟩
      ⟨l', xs ++ (q.allocas.map G.names.instruction ++ rest), t', σ⟩

/-- What is left of a block of the callee, without the allocations of the entry block. -/
def left (q : Proc) (l : BlockId) (r : List Instruction) : List Instruction :=
  if l = q.entry then r.filter fun i => !i.isAlloca else r

/-- The frame of the callee, that of the caller, and the one that both share. -/
inductive Inside (G : Graft) (k : FuncId) (q : Proc) (A B : Ledger) (n : Nat) (ι : Placing) :
    Frame → Frame → Frame → Prop
  | intro {done l r ρ τ σ} {c : Code} (hp : q.Path done l r) (hc : q.code l = some c)
      (hs : r <:+ c.body) (hopen : l = q.entry → ∀ s ty, .alloca s ty ∈ r → τ s = none)
      (hr : G.Inner k q A B n ι done ρ τ σ) :
    Inside G k q A B n ι ⟨l, r, c.exit, τ⟩ ⟨G.block, G.after, G.exit, ρ⟩
      ⟨G.names.label l, (left q l r).map G.names.instruction, copyTerminator G.names G.tail c.exit, σ⟩

/-- The frames that wait. -/
inductive Stack (G : Graft) (k : FuncId) (p q : Proc) (A B : Ledger) (ι : Placing) :
    List Waiting → List Waiting → Prop
  | nil : Stack G k p q A B ι [] []
  | outer {f a a' d ws ws'} (hf : G.Fits k p q True B ws'.length ι f a a')
      (hd : f = k → ∀ r ∈ d, G.Own q r) (h : Stack G k p q A B ι ws ws') :
    Stack G k p q A B ι (⟨f, a, d⟩ :: ws) (⟨f, a', d⟩ :: ws')
  | inner {a b a' d ws ws'} (hf : G.Inside k q A B ws'.length ι a b a')
      (hd : ∀ r ∈ d, q.Defines r ∧ ¬ q.Slot r) (h : Stack G k p q A B ι ws ws') :
    Stack G k p q A B ι (⟨G.callee, a, d⟩ :: ⟨k, b, G.dest⟩ :: ws)
      (⟨k, a', d.map G.names.reg⟩ :: ws')

variable {k f : FuncId} {G : Graft} {p q : Proc} {A B A' B' : Ledger} {n : Nat} {ι κ : Placing}
  {ρ : Regs} {l l' : BlockId} {i : Instruction} {r r' : List Instruction} {t t' : Terminator}
  {a a' b : Frame} {d : Option Reg} {v w : Option Value} {u : Prop}

theorem Fits.extend (h : G.Fits k p q u B n ι f a a') (he : ι.Extends κ)
    (hB : B.Keeps (n + 1) B') : G.Fits k p q u B' n κ f a a' := by
  cases h with
  | ready ht hd hr => exact .ready ht hd (hr.extend he hB)
  | opening hf hxs hdue ht hd hr => exact .opening hf hxs hdue ht hd (hr.extend he hB)

theorem Fits.resume (h : G.Fits k p q u B n ι f a a') (hd : f = k → ∀ r ∈ d, G.Own q r)
    (hm : MovedOption id ι v w) : G.Fits k p q u B n ι f (a.resume d v) (a'.resume d w) := by
  cases h with
  | ready ht hd' hr => exact .ready ht hd' (hr.put (Subset.refl _) hd hm)
  | opening hf hxs hdue ht hd' hr =>
    exact .opening hf hxs hdue ht hd' (hr.put (nil_subset _) hd hm)

theorem Inside.extend (h : G.Inside k q A B n ι a b a') (he : ι.Extends κ)
    (hA : A.Keeps (n + 1) A') (hB : B.Keeps (n + 1) B') : G.Inside k q A' B' n κ a b a' := by
  cases h with
  | intro hp hc hs hopen hr => exact .intro hp hc hs hopen (hr.extend he hA hB)

theorem Stack.extend {ws ws' : List Waiting} (h : G.Stack k p q A B ι ws ws') (he : ι.Extends κ)
    (hA : A.Keeps ws'.length A') (hB : B.Keeps ws'.length B') : G.Stack k p q A' B' κ ws ws' := by
  induction h with
  | nil => exact .nil
  | outer hf hd _ ih =>
    exact .outer (hf.extend he hB) hd (ih (hA.mono (Nat.le_succ _)) (hB.mono (Nat.le_succ _)))
  | inner hf hd _ ih =>
    exact .inner (hf.extend he hA hB) hd (ih (hA.mono (Nat.le_succ _)) (hB.mono (Nat.le_succ _)))

theorem Stack.length_le {ws ws' : List Waiting} (h : G.Stack k p q A B ι ws ws') :
    ws'.length ≤ ws.length := by
  induction h with
  | nil => exact Nat.le_refl 0
  | outer _ _ _ ih => exact Nat.succ_le_succ ih
  | inner _ _ _ ih => exact Nat.le_succ_of_le (Nat.succ_le_succ ih)

theorem Text.next (h : G.Text k p q f l (i :: r) t l' r' t') :
    (∃ r₁, r' = i :: r₁ ∧ G.Text k p q f l r t l' r₁ t') ∨
      (f = k ∧ l = G.block ∧ i = .call G.dest G.callee G.args ∧ r = G.after ∧ t = G.exit ∧
        l' = G.block ∧ r' = [] ∧ t' = .branch (G.names.label q.entry)) := by
  obtain ⟨x, hx⟩ : ∃ x, x = i :: r := ⟨_, rfl⟩
  rw [← hx] at h
  cases h with
  | other hf => exact .inl ⟨r, hx, .other hf⟩
  | same hf hc => exact .inl ⟨r, hx, .same hf hc⟩
  | cut hf =>
    cases r' with
    | nil =>
      cases hx
      exact .inr ⟨hf, rfl, rfl, rfl, rfl, rfl, rfl, rfl⟩
    | cons j r₁ =>
      cases hx
      exact .inl ⟨r₁, rfl, .cut hf⟩

theorem Text.nil (h : G.Text k p q f l [] t l' r' t') :
    r' = [] ∧ t' = t ∧
      (f ≠ k ∧ l' = l ∨ f = k ∧ l' = G.turn l ∧ ∃ c, p.code l = some c ∧ c.exit = t) := by
  obtain ⟨x, hx⟩ : ∃ x : List Instruction, x = [] := ⟨_, rfl⟩
  rw [← hx] at h
  cases h with
  | other hf => exact ⟨hx, rfl, .inl ⟨hf, rfl⟩⟩
  | same hf hc => exact ⟨hx, rfl, .inr ⟨hf, rfl, _, hc, rfl⟩⟩
  | cut hf => cases r' <;> cases hx

theorem Fits.next (h : G.Fits k p q False B n ι f ⟨l, i :: r, t, ρ⟩ a') :
    (∃ L r₁, L ⊆ q.allocas ∧ a'.rest = i :: r₁ ∧ G.Outer k q L B n ι f ρ a'.regs ∧
      (f = k → ∀ d ∈ i.dest?, G.Own q d) ∧ ∀ {B' κ ρ' σ'}, G.Outer k q L B' n κ f ρ' σ' →
        G.Fits k p q True B' n κ f ⟨l, r, t, ρ'⟩ ⟨a'.label, r₁, a'.exit, σ'⟩) ∨
      (f = k ∧ l = G.block ∧ i = .call G.dest G.callee G.args ∧ r = G.after ∧ t = G.exit ∧
        a' = ⟨G.block, [], .branch (G.names.label q.entry), a'.regs⟩ ∧
        G.Outer k q q.allocas B n ι k ρ a'.regs) := by
  have hown : (f = k → ∀ j ∈ i :: r, ∀ d ∈ j.dest?, G.Own q d) →
      (f = k → ∀ d ∈ i.dest?, G.Own q d) ∧ (f = k → ∀ j ∈ r, ∀ d ∈ j.dest?, G.Own q d) :=
    fun hd => ⟨fun hf => hd hf i mem_cons_self, fun hf j hj => hd hf j (mem_cons_of_mem _ hj)⟩
  cases h with
  | ready ht hd hr =>
    obtain ⟨hi, hd⟩ := hown hd
    rcases ht.next with ⟨r₁, rfl, ht'⟩ | ⟨rfl, rfl, rfl, rfl, rfl, rfl, rfl, rfl⟩
    · exact .inl ⟨q.allocas, r₁, Subset.refl _, rfl, hr, hi, fun hr' => .ready ht' hd hr'⟩
    · exact .inr ⟨rfl, rfl, rfl, rfl, rfl, rfl, hr⟩
  | @opening _ _ _ _ _ xs rest _ _ hf hxs hdue ht hd hr =>
    obtain ⟨hi, hd⟩ := hown hd
    cases xs with
    | nil => exact (hdue rfl).elim
    | cons x xs =>
      rcases ht.next with ⟨r₁, hr₁, ht'⟩ | ⟨-, -, -, -, -, -, hnil, -⟩
      · cases hr₁
        exact .inl ⟨[], _, nil_subset _, rfl, hr, hi, fun hr' =>
          .opening hf (fun j hj => hxs j (mem_cons_of_mem _ hj)) (fun _ => trivial) ht' hd hr'⟩
      · cases hnil

theorem Fits.nil (h : G.Fits k p q False B n ι f ⟨l, [], t, ρ⟩ a') :
    a'.rest = [] ∧ a'.exit = t ∧ G.Outer k q q.allocas B n ι f ρ a'.regs ∧
      (f ≠ k ∧ a'.label = l ∨
        f = k ∧ a'.label = G.turn l ∧ ∃ c, p.code l = some c ∧ c.exit = t) := by
  cases h with
  | ready ht _ hr =>
    obtain ⟨rfl, rfl, hl⟩ := ht.nil
    exact ⟨rfl, rfl, hr, hl⟩
  | @opening _ _ _ _ _ xs _ _ _ _ _ hdue ht _ _ =>
    obtain ⟨hnil, -⟩ := ht.nil
    exact (hdue (append_eq_nil_iff.mp hnil).1).elim

end Graft

theorem incomings_moved {ι : Placing} {ρ σ : Regs} {a b : BlockId} {phis : List Phi}
    {h : Phi → Phi} (hx : ∀ x ∈ phis, ∀ o, x.incomingFor a = some o →
      ∃ o', (h x).incomingFor b = some o' ∧ Carried id ι (ρ.value o) (σ.value o'))
    {vs : List Value} (hvs : incomings ρ a phis = some vs) :
    ∃ ws, incomings σ b (phis.map h) = some ws ∧ List.Forall₂ (Moved id ι) vs ws := by
  induction phis generalizing vs with
  | nil =>
    cases hvs
    exact ⟨[], rfl, .nil⟩
  | cons x phis ih =>
    obtain ⟨hhead, htail⟩ := forall_mem_cons.mp hx
    obtain ⟨v, vs', hv, hvs', rfl⟩ := incomings_cons.mp hvs
    obtain ⟨o, ho, hv⟩ := bind_eq_some_iff.mp hv
    obtain ⟨o', ho', hc⟩ := hhead o ho
    obtain ⟨w, hw, hm⟩ := hc v hv
    obtain ⟨ws, hws, hall⟩ := ih htail hvs'
    exact ⟨w :: ws, incomings_cons.mpr ⟨w, ws, by simp [ho', hw], hws, rfl⟩, .cons hm hall⟩

/-- Two programs, where the call `G` of `q` in the function `k` is inlined in the second. -/
structure Inlining (E E' : Program) (k : FuncId) (G : Graft) (p q p' : Proc) : Prop where
  joins : G.Joins p q p'
  source : E k = some p
  target : E' k = some p'
  callee : E G.callee = some q
  other : ∀ {f}, f ≠ k → E' f = E f
  caller : p.Connected
  body : q.Connected
  distinct : q.Distinct
  scratch : q.Scratch
  result : G.dest ≠ none → ∀ {l c v}, q.code l = some c → c.exit = .ret v → v ≠ none

/-- The same point of a run. Cells in `ι₀` have their places from the start. -/
inductive Inlining.Like (k : FuncId) (G : Graft) (p q : Proc) (ι₀ : Placing) : Config → Config → Prop
  | outer {A B ι f a a' ws ws' small large} (hf : G.Fits k p q True B ws'.length ι f a a')
      (hs : G.Stack k p q A B ι ws ws') (hm : (A.Pairs B).onto ι₀ ι small large) :
    Like k G p q ι₀ ⟨f, a, ws, small⟩ ⟨f, a', ws', large⟩
  | inner {A B ι a b a' ws ws' small large} (hf : G.Inside k q A B ws'.length ι a b a')
      (hs : G.Stack k p q A B ι ws ws') (hm : (A.Pairs B).onto ι₀ ι small large) :
    Like k G p q ι₀ ⟨G.callee, a, ⟨k, b, G.dest⟩ :: ws, small⟩ ⟨k, a', ws', large⟩

namespace Inlining

open Graft

variable {E E' : Program} {cells : Table GlobalId Nat} {k f : FuncId} {G : Graft} {p q p' : Proc}
  {A B A' B' : Ledger} {n : Nat} {ι₀ ι : Placing} {ρ τ σ : Regs} {l l' : BlockId} {c : Code}
  {i : Instruction} {r r' : List Instruction} {t t' : Terminator} {a a' b : Frame} {j : Nat}
  {d : Option Reg} {ws ws' : List Waiting} {small large : Array Value} {c' e e' : Config}
  {vs us : List Value} {p₁ : Proc}

theorem own_of_defines (I : Inlining E E' k G p q p') {x : Reg} (h : p.Defines x) : G.Own q x := by
  rintro y hy rfl
  exact (I.joins.reg_new hy).2.2 h

theorem own_of_dest (I : Inlining E E' k G p q p') (hc : p.code l = some c) :
    ∀ i ∈ c.body, ∀ d ∈ i.dest?, G.Own q d :=
  fun _ hi _ hd => I.own_of_defines (Proc.defines_of_mem hc hi hd)

theorem opens (I : Inlining E E' k G p q p') (hf : E f = some p₁) (ha : p₁.accepts vs.length)
    (hs : p₁.start vs = some a) (hall : List.Forall₂ (Moved id ι) vs us) (B : Ledger) (n : Nat) :
    ∃ p₁' a', E' f = some p₁' ∧ p₁'.accepts us.length ∧ p₁'.start us = some a' ∧
      G.Fits k p q True B n ι f a a' := by
  obtain ⟨c, hc, hphis, rfl⟩ := Proc.start_eq_some.mp hs
  rw [hall.length_eq] at ha
  by_cases hfk : f = k
  · subst hfk
    cases I.source.symm.trans hf
    have hJ := I.joins
    have hregs : G.Outer f q [] B n ι f (Regs.bind p.params vs fun _ => none)
        (Regs.bind p.params us fun _ => none) := by
      refine Outer.bind (.start fun _ => rfl) (nil_subset _) (fun _ x hx y hy he => ?_) hall
      exact (hJ.reg_new hy).2.1 (he ▸ hx)
    have hcode : ∃ c' : Code, p'.code p.entry = some (c'.hoist (q.allocas.map G.names.instruction)) ∧
        c'.phis = [] ∧ G.Text f p q f p.entry c.body c.exit p.entry c'.body c'.exit := by
      by_cases he : p.entry = G.block
      · have hhead := hJ.head
        have hcall := hJ.call
        rw [← he] at hhead hcall
        cases hc.symm.trans hcall
        rw [hoist, if_pos rfl] at hhead
        refine ⟨_, hhead, ?_, ?_⟩
        · rw [show G.phis = [] from hphis]
          rfl
        · rw [he]
          exact .cut rfl
      · have hold := hJ.old he hc
        rw [hoist, if_pos rfl] at hold
        have htext : G.Text f p q f p.entry c.body c.exit (G.turn p.entry) c.body c.exit := .same rfl hc
        rw [turn, if_neg he] at htext
        exact ⟨_, hold, by rw [Code.retarget, hphis]; rfl, htext⟩
    obtain ⟨c', hc', hphis', ht⟩ := hcode
    rw [← takeWhile_append_dropWhile (p := Instruction.isAlloca) (l := c'.body)] at ht
    have hfits := Fits.opening rfl (fun i hi => mem_takeWhile_imp hi) (fun _ => trivial) ht
      (fun _ => I.own_of_dest hc) hregs
    refine ⟨p', _, I.target, ?_, Proc.start_eq_some.mpr ⟨c'.hoist _, hJ.entry ▸ hc', hphis',
      rfl⟩, ?_⟩
    · rw [Proc.accepts, hJ.params, hJ.varargs]
      exact ha
    · rw [hJ.params, hJ.entry]
      simpa [Code.hoist] using hfits
  · refine ⟨p₁, _, (I.other hfk).trans hf, ha, Proc.start_eq_some.mpr ⟨c, hc, hphis, rfl⟩,
      .ready (.other hfk) (fun he => absurd he hfk) ?_⟩
    exact Outer.bind (.start fun he => absurd he hfk) (Subset.refl _) (fun he => absurd he hfk) hall

theorem runs_allocas {todo L : List Instruction} (htodo : todo ⊆ q.allocas) (hL : L ⊆ q.allocas)
    (hJ : G.Joins p q p') (hr : G.Outer k q L B n ι k ρ σ)
    (hm : (A.Pairs B).onto ι₀ ι small large) :
    ∃ B' σ' large' m, Runs cells E'
        ⟨k, ⟨l, todo.map G.names.instruction ++ r, t, σ⟩, ws', large⟩ m
        ⟨k, ⟨l, r, t, σ'⟩, ws', large'⟩ ∧ (∀ n, B.Keeps n B') ∧
      (A.Pairs B').onto ι₀ ι small large' ∧ G.Outer k q (todo ++ L) B' n ι k ρ σ' := by
  induction todo generalizing L B σ large with
  | nil => exact ⟨B, σ, large, 0, .refl _, fun _ => .refl _ B, hm, hr⟩
  | cons i todo ih =>
    obtain ⟨hi, hrest⟩ := cons_subset.mp htodo
    obtain ⟨c, hc, hmem, ha⟩ := Proc.mem_allocas.mp hi
    obtain ⟨s, ty, rfl, hs⟩ := Proc.slot_of_isAlloca hc hmem ha
    obtain ⟨hnone, hm₁⟩ := hm.1.pushThere ⟨n, s, .ofConst ty.zero⟩
    have hkeep : ∀ m, B.Keeps m (Function.update B large.size (some ⟨n, s, .ofConst ty.zero⟩)) :=
      fun _ => Ledger.keeps_update (fun e he => by cases hnone.symm.trans he) _
    have hne : ∀ {x}, q.Defines x → x ≠ s → some (G.names.reg s) ≠ some (G.names.reg x) :=
      fun hx hxs he => hxs (hJ.reg_inj hx hs.defines (Option.some.inj he).symm)
    have hr₁ : G.Outer k q (.alloca s ty :: L)
        (Function.update B large.size (some ⟨n, s, .ofConst ty.zero⟩)) n ι k ρ
        (σ.put (some (G.names.reg s)) (some (.ptr large.size))) := by
      refine ⟨fun x hx v hv => ?_, hr.fresh, fun hf x ty' hx => ?_⟩
      · have hxs : some (G.names.reg s) ≠ some x := by
          rintro ⟨⟩
          rw [hr.fresh rfl s hs.defines] at hv
          cases hv
        rw [show Coding.all.reg x = x from rfl, Regs.put_of_ne hxs]
        exact hr.regs x hx v hv
      · by_cases hxs : x = s
        · subst hxs
          exact ⟨large.size, _, Regs.put_self .., Function.update_self ..⟩
        · have hx : .alloca x ty' ∈ L := by
            rcases mem_cons.mp hx with hx | hx
            · cases hx
              exact absurd rfl hxs
            · exact hx
          obtain ⟨h, w, hσ, hB⟩ := hr.slots hf x ty' hx
          rw [Regs.put_of_ne (hne (Proc.Slot.defines ⟨ty', hL hx⟩) hxs)]
          exact ⟨h, w, hσ, hkeep (n + 1) _ _ hB (Nat.lt_succ_self n)⟩
    obtain ⟨B', σ', large', m, hruns, hkeep', hm', hr'⟩ :=
      ih hrest (cons_subset.mpr ⟨hi, hL⟩) hr₁ ⟨hm₁, hm.2⟩
    refine ⟨B', σ', large', m + 1, .head (.act rfl) hruns, fun n c e he hlt =>
      hkeep' n c e (hkeep n c e he hlt) hlt, hm', ⟨hr'.regs, hr'.fresh, fun hf x ty' hx => ?_⟩⟩
    refine hr'.slots hf x ty' ?_
    simp only [mem_append, mem_cons] at hx ⊢
    tauto

theorem settle (hJ : G.Joins p q p') (h : G.Fits k p q True B n ι f a a')
    (hm : (A.Pairs B).onto ι₀ ι small large) :
    ∃ B' a'' large' m, Runs cells E' ⟨f, a', ws', large⟩ m ⟨f, a'', ws', large'⟩ ∧
      (∀ n, B.Keeps n B') ∧ (A.Pairs B').onto ι₀ ι small large' ∧
      G.Fits k p q False B' n ι f a a'' := by
  cases h with
  | ready ht hd hr => exact ⟨B, _, large, 0, .refl _, fun _ => .refl _ B, hm, .ready ht hd hr⟩
  | @opening _ _ _ _ _ xs _ _ _ hf hxs _ ht hd hr =>
    cases xs with
    | cons x xs =>
      exact ⟨B, _, large, 0, .refl _, fun _ => .refl _ B, hm,
        .opening hf hxs (fun hx => nomatch hx) ht hd hr⟩
    | nil =>
      subst hf
      obtain ⟨B', σ', large', m, hruns, hkeep, hm', hr'⟩ :=
        runs_allocas (Subset.refl _) (nil_subset _) hJ hr hm
      rw [append_nil] at hr'
      exact ⟨B', _, large', m, hruns, hkeep, hm', .ready ht hd hr'⟩

theorem acts (hι : ∀ g c, cells.get? g = some c → ι₀ c = some c)
    (hm : (A.Pairs B).onto ι₀ ι small large) {h : Operand → Operand}
    (hv : ∀ o ∈ i.operands, Carried id ι (ρ.value o) (σ.value (h o))) :
    Outcome.Carried id ((A.Pairs B).onto ι₀) ι (act cells ρ small i)
      (act cells σ large (i.mapOperands h)) := by
  have hcells : ∀ g ∈ i.global?, ∀ c, cells.get? g = some c →
      ∃ d, cells.get? g = some d ∧ ι c = some d :=
    fun g _ c hc => ⟨c, hc, hm.2 _ _ (hι g c hc)⟩
  have hacts := act_carried ((Pairing.Private.faithful _ A B).onto ι₀) hm hcells (.inl rfl) hv
  rwa [Instruction.redirect_id] at hacts

theorem value_same (hr : Coding.all.Agree id ι ρ σ) (o : Operand) :
    Carried id ι (ρ.value o) (σ.value (id o)) := by
  have hv := hr.value (o := o) fun _ _ => trivial
  rwa [Coding.all, Duplicates.Renaming.operand_same] at hv

theorem leads_same (hr : Coding.all.Agree id ι ρ σ) (t : Terminator) :
    (∀ l, leads ρ t = some (.goto l) → leads σ t = some (.goto l)) ∧
      ∀ v, leads ρ t = some (.back v) → ∃ w, leads σ t = some (.back w) ∧ MovedOption id ι v w := by
  have hleads := leads_carried (t := t) id fun o _ => hr.value (o := o) fun _ _ => trivial
  rwa [show (t.mapOperands Coding.all.operand).mapTargets id = t from
    Duplicates.Renaming.terminator_same t] at hleads

theorem lookup_mapKeys {g : BlockId → BlockId} {h : Operand → Operand}
    {s : List (BlockId × Operand)} (hg : ∀ a ∈ s.map Prod.fst, g a = g l → a = l) :
    (s.map fun e => (g e.1, h e.2)).lookup (g l) = (s.lookup l).map h := by
  induction s with
  | nil => rfl
  | cons e s ih =>
    obtain ⟨hhead, htail⟩ := forall_mem_cons.mp hg
    rw [map_cons, lookup_cons, lookup_cons, ih htail]
    by_cases he : l = e.1
    · simp [he]
    · have hne : g l ≠ g e.1 := fun hge => he (hhead hge.symm).symm
      simp [beq_eq_false_iff_ne.mpr he, beq_eq_false_iff_ne.mpr hne]

theorem incomingFor_retarget (I : Inlining E E' k G p q p') (hc : p.code l' = some c) {x : Phi}
    (hx : x ∈ c.phis) (hl : (p.code l).isSome) :
    (x.retarget G.block G.tail).incomingFor (G.turn l) = x.incomingFor l := by
  have hne : ∀ {a}, (p.code a).isSome → a ≠ G.tail := by
    rintro a ha rfl
    rw [I.joins.tail_new] at ha
    cases ha
  have hlookup := lookup_mapKeys (g := G.turn) (h := id) (l := l) (s := x.incoming) fun a ha he => by
    have hat := hne (isSome_of_edge ((I.caller.source hc x hx a).mp ha))
    unfold turn at he
    split at he <;> split at he
    · next h₁ h₂ => exact h₁.trans h₂.symm
    · exact absurd he.symm (hne hl)
    · exact absurd he hat
    · exact he
  rw [Option.map_id] at hlookup
  exact hlookup

theorem found (I : Inlining E E' k G p q p') {l₁ : BlockId}
    (hl : f ≠ k ∧ l' = l ∨ f = k ∧ l' = G.turn l ∧ ∃ c, p.code l = some c ∧ c.exit = t)
    (hf : E f = some p₁) (hs : l₁ ∈ t.successors) (hc : p₁.code l₁ = some c) :
    ∃ p₁' c' h, E' f = some p₁' ∧ p₁'.code l₁ = some c' ∧ c'.phis = c.phis.map h ∧
      (∀ x ∈ c.phis, (h x).dest = x.dest ∧ (h x).incomingFor l' = x.incomingFor l) ∧
      G.Text k p q f l₁ c.body c.exit l₁ c'.body c'.exit ∧
      (f = k → (∀ i ∈ c.body, ∀ d ∈ i.dest?, G.Own q d) ∧ ∀ x ∈ c.phis, G.Own q x.dest) := by
  rcases hl with ⟨hfk, rfl⟩ | ⟨rfl, rfl, c₀, hc₀, rfl⟩
  · exact ⟨p₁, c, id, (I.other hfk).trans hf, hc, (map_id _).symm, fun _ _ => ⟨rfl, rfl⟩,
      .other hfk, fun he => absurd he hfk⟩
  · cases I.source.symm.trans hf
    have hentry : l₁ ≠ p.entry := fun he => I.caller.root l (he ▸ ⟨c₀, hc₀, hs⟩)
    have hcode : ∃ c', p'.code l₁ = some c' ∧
        c'.phis = c.phis.map (fun x => x.retarget G.block G.tail) ∧
        G.Text f p q f l₁ c.body c.exit l₁ c'.body c'.exit := by
      by_cases hb : l₁ = G.block
      · subst hb
        cases hc.symm.trans I.joins.call
        have hhead := I.joins.head
        rw [hoist, if_neg hentry] at hhead
        exact ⟨_, hhead, rfl, .cut rfl⟩
      · have hold := I.joins.old hb hc
        rw [hoist, if_neg hentry] at hold
        have htext : G.Text f p q f l₁ c.body c.exit (G.turn l₁) c.body c.exit := .same rfl hc
        rw [turn, if_neg hb] at htext
        exact ⟨_, hold, rfl, htext⟩
    obtain ⟨c', hc', hphis, ht⟩ := hcode
    refine ⟨p', c', _, I.target, hc', hphis, fun x hx => ⟨rfl, ?_⟩, ht, fun _ =>
      ⟨I.own_of_dest hc, fun x hx => ?_⟩⟩
    · exact I.incomingFor_retarget hc hx (by rw [hc₀]; rfl)
    · exact I.own_of_defines ⟨l₁, c, hc, mem_append_left _ (List.mem_map_of_mem hx)⟩

theorem copied (hJ : G.Joins p q p') (hc : q.code l = some c) :
    p'.code (G.names.label l) = some ⟨c.phis.map G.names.phi,
      (left q l c.body).map G.names.instruction, copyTerminator G.names G.tail c.exit⟩ := by
  rw [hJ.copy hc, left]
  split <;> rfl

theorem resume_inside (hJ : G.Joins p q p') (h : G.Inside k q A B n ι a b a')
    (hd : ∀ r ∈ d, q.Defines r ∧ ¬ q.Slot r) {v w : Option Value} (hm : MovedOption id ι v w) :
    G.Inside k q A B n ι (a.resume d v) b (a'.resume (d.map G.names.reg) w) := by
  cases h with
  | intro hp hc hs hopen hr =>
    refine .intro hp hc hs (fun hl s ty hs' => ?_) (hr.put hJ hd hm)
    have hslot : q.Slot s := by
      subst hl
      exact ⟨ty, Proc.mem_allocas.mpr ⟨_, hc, hs.subset hs', rfl⟩⟩
    rw [Regs.put_of_ne fun he => (hd s he).2 hslot]
    exact hopen hl s ty hs'

theorem outer_moves (I : Inlining E E' k G p q p')
    (hι : ∀ g c, cells.get? g = some c → ι₀ c = some c)
    (hf : G.Fits k p q False B ws'.length ι f a a') (hs : G.Stack k p q A B ι ws ws')
    (hm : (A.Pairs B).onto ι₀ ι small large) (h : Moves cells E ⟨f, a, ws, small⟩ j e) :
    ∃ e' m, Runs cells E' ⟨f, a', ws', large⟩ m e' ∧ Like k G p q ι₀ e e' := by
  obtain ⟨l', r', t', σ⟩ := a'
  cases h with
  | @act _ _ i _ _ _ _ _ _ _ ha =>
    rcases hf.next with ⟨L, r₁, hL, rfl, hr, hi, hgo⟩ | ⟨-, -, rfl, -⟩
    · obtain ⟨o', ho', hmo⟩ := acts hι hm (fun o _ => value_same hr.regs o) _ ha
      rw [Instruction.mapOperands_id] at ho'
      cases hmo with
      | plain he hv hm' =>
        exact ⟨_, 1, .one (.act ho'), .outer (hgo ((hr.extend he (.refl _ B)).put hL hi hv))
          (hs.extend he (.refl _ A) (.refl _ B)) hm'⟩
    · obtain ⟨_, -, ha⟩ := bind_eq_some_iff.mp ha
      cases ha
  | @call _ _ i _ _ _ _ _ callee args q₁ b ha hq hn hd hb =>
    rcases hf.next with ⟨L, r₁, hL, rfl, hr, hi, hgo⟩ | ⟨rfl, rfl, rfl, rfl, rfl, ha', hr⟩
    · obtain ⟨o', ho', hmo⟩ := acts hι hm (fun o _ => value_same hr.regs o) _ ha
      rw [Instruction.mapOperands_id] at ho'
      cases hmo with
      | call _ hall =>
        obtain ⟨q₁', b', hq', hn', hb', hfits⟩ := I.opens hq hn hb hall B (ws'.length + 1)
        have hdepth : ws'.length + 1 < depthLimit :=
          Nat.lt_of_le_of_lt (Nat.succ_le_succ hs.length_le) hd
        exact ⟨_, 1, .one (.call ho' hq' hn' hdepth hb'), .outer hfits (.outer (hgo hr) hi hs) hm⟩
    · obtain ⟨vs, hvs, ha⟩ := bind_eq_some_iff.mp ha
      cases ha
      cases ha'
      cases I.callee.symm.trans hq
      obtain ⟨c, hc, hphis, rfl⟩ := Proc.start_eq_some.mp hb
      obtain ⟨hinner, hnone⟩ := hr.enter (A := A) I.joins I.distinct hvs
      have hcopy := copied I.joins hc
      rw [hphis] at hcopy
      refine ⟨_, _, .one (.goto I.target rfl hcopy rfl), .inner (.intro (.start hc) hc (suffix_refl _)
        (fun _ s ty hs' => hnone s ⟨ty, Proc.mem_allocas.mpr ⟨c, hc, hs', rfl⟩⟩) hinner) hs hm⟩
  | @goto _ p₁ _ _ _ _ _ l₁ c vs hp hlead hc hvs =>
    obtain ⟨hrest, hexit, hr, hl⟩ := hf.nil
    cases hrest
    cases hexit
    obtain ⟨p₁', c', h, hp', hc', hphis, hx, ht, hown⟩ :=
      I.found hl hp (mem_successors_of_goto hlead) hc
    obtain ⟨us, hus, hall⟩ := incomings_moved (σ := σ) (b := l') (h := h)
      (fun x hmem o ho => ⟨o, (hx x hmem).2.trans ho, value_same hr.regs o⟩) hvs
    have hdest : c'.phis.map Phi.dest = c.phis.map Phi.dest := by
      rw [hphis, List.map_map]
      exact map_congr_left fun x hmem => (hx x hmem).1
    rw [← hphis] at hus
    refine ⟨_, _, .one (.goto hp' ((leads_same hr.regs _).1 _ hlead) hc' hus),
      .outer (.ready ht (fun hk => (hown hk).1) ?_) hs hm⟩
    rw [hdest]
    refine hr.bind (Subset.refl _) (fun hk x hmem => ?_) hall
    obtain ⟨y, hy, rfl⟩ := List.mem_map.mp hmem
    exact (hown hk).2 y hy
  | @back _ _ _ _ v w _ _ hlead =>
    obtain ⟨hrest, hexit, hr, -⟩ := hf.nil
    cases hrest
    cases hexit
    obtain ⟨x, hx, hmo⟩ := (leads_same hr.regs _).2 _ hlead
    cases hs with
    | outer hf' hd' hs' => exact ⟨_, 1, .one (.back hx), .outer (hf'.resume hd' hmo) hs' hm⟩
    | inner hf' hd' hs' =>
      exact ⟨_, 1, .one (.back hx), .inner (resume_inside I.joins hf' hd' hmo) hs' hm⟩

theorem left_nil : left q l [] = [] := by
  unfold left
  split <;> rfl

theorem left_cons (h : ¬ (l = q.entry ∧ i.isAlloca = true)) :
    left q l (i :: r) = i :: left q l r := by
  unfold left
  split
  · next hl => rw [filter_cons, if_pos (by simpa using fun ha => h ⟨hl, ha⟩)]
  · rfl

theorem left_cons_of_isAlloca (ha : i.isAlloca = true) :
    left q q.entry (i :: r) = left q q.entry r := by
  rw [left, left, if_pos rfl, if_pos rfl, filter_cons, if_neg (by simp [ha])]

theorem step_inside {done : List Instruction} (hq : q.Distinct) (hp : q.Path done l (i :: r))
    (hc : q.code l = some c) (hs : i :: r <:+ c.body)
    (hopen : l = q.entry → ∀ s ty, .alloca s ty ∈ i :: r → τ s = none) {v : Option Value}
    (hr : G.Inner k q A B n ι (i :: done) ρ (τ.put i.dest? v) σ) :
    G.Inside k q A B n ι ⟨l, r, c.exit, τ.put i.dest? v⟩ ⟨G.block, G.after, G.exit, ρ⟩
      ⟨G.names.label l, (left q l r).map G.names.instruction, copyTerminator G.names G.tail c.exit, σ⟩ := by
  refine .intro hp.step hc ((suffix_cons i r).trans hs) (fun hl s ty hmem => ?_) hr
  rw [Regs.put_of_ne (hq.not_alloca_below hc hs hmem)]
  exact hopen hl s ty (mem_cons_of_mem _ hmem)

theorem inner_alloca {done : List Instruction} {s : Reg} {ty : Ty} (hs : q.Slot s)
    (hnone : τ s = none) (hr : G.Inner k q A B n ι done ρ τ σ)
    (hm : (A.Pairs B).onto ι₀ ι small large) :
    ∃ A', A.Keeps n A' ∧ (A'.Pairs B).onto ι₀ ι (small.push (.ofConst ty.zero)) large ∧
      G.Inner k q A' B n ι (.alloca s ty :: done) ρ (τ.put (some s) (some (.ptr small.size))) σ := by
  obtain ⟨hnew, hm'⟩ := hm.1.pushHere ⟨n, s, .ofConst ty.zero⟩
  have hkeep : ∀ m, A.Keeps m (Function.update A small.size (some ⟨n, s, .ofConst ty.zero⟩)) :=
    fun _ => Ledger.keeps_update (fun e he => by cases hnew.symm.trans he) _
  have hold : ∀ {x o}, .store (.reg x) o ∈ (.alloca s ty :: done : List Instruction) →
      .store (.reg x) o ∈ done := fun ho => (mem_cons.mp ho).resolve_left fun he => by cases he
  have hput : ∀ {x}, x ≠ s → τ.put (some s) (some (.ptr small.size)) x = τ x :=
    fun hx => Regs.put_of_ne (by simpa using Ne.symm hx) ..
  refine ⟨_, hkeep n, ⟨hm', hm.2⟩, hr.toOuter, fun x v hx hv => ?_, fun x v hx hv => ?_,
    fun x o hx ho => ?_⟩
  · rw [hput (by rintro rfl; exact hx hs)] at hv
    exact hr.value x v hx hv
  · by_cases hxs : x = s
    · subst hxs
      rw [Regs.put_self] at hv
      cases hv
      obtain ⟨ty', hmem⟩ := hs
      obtain ⟨h, w, hσ, hB⟩ := hr.slots rfl x ty' hmem
      refine ⟨small.size, _, h, w, rfl, Function.update_self .., hσ, hB, ?_⟩
      rintro ⟨o, ho⟩
      exact absurd hnone (hr.opened x o hx (hold ho))
    · rw [hput hxs] at hv
      obtain ⟨c, y, h, w, hv, hA, hσ, hB, hmo⟩ := hr.slot x v hx hv
      refine ⟨c, y, h, w, hv, hkeep (n + 1) _ _ hA (Nat.lt_succ_self n), hσ, hB, ?_⟩
      rintro ⟨o, ho⟩
      exact hmo ⟨o, hold ho⟩
  · by_cases hxs : x = s
    · subst hxs
      rw [Regs.put_self]
      exact Option.some_ne_none _
    · rw [hput hxs]
      exact hr.opened x o hx (hold ho)

theorem inner_store {done : List Instruction} {s : Reg} {o : Operand} {c : Nat} {v w : Value}
    (hs : q.Slot s) (hr : G.Inner k q A B n ι done ρ τ σ) (hm : (A.Pairs B).onto ι₀ ι small large)
    (hc : τ s = some (.ptr c)) (hv : Moved id ι v w) :
    ∃ A' B' h, A.Keeps n A' ∧ B.Keeps n B' ∧ σ (G.names.reg s) = some (.ptr h) ∧ h < large.size ∧
      (A'.Pairs B').onto ι₀ ι (small.setIfInBounds c v) (large.setIfInBounds h w) ∧
      G.Inner k q A' B' n ι (.store (.reg s) o :: done) ρ τ σ := by
  obtain ⟨c₀, x, h, y, hc₀, hA, hσ, hB, -⟩ := hr.slot s _ hs hc
  cases hc₀
  have hA' : ∀ {c' e}, A c' = some e → e.reg ≠ s →
      Function.update A c (some ⟨n, s, v⟩) c' = some e := by
    intro c' e he hne
    rw [Function.update_of_ne, he]
    rintro rfl
    cases hA.symm.trans he
    exact hne rfl
  have hB' : ∀ {h' e}, B h' = some e → e.reg ≠ s →
      Function.update B h (some ⟨n, s, w⟩) h' = some e := by
    intro h' e he hne
    rw [Function.update_of_ne, he]
    rintro rfl
    cases hB.symm.trans he
    exact hne rfl
  refine ⟨_, _, h, Ledger.keeps_update (fun e he => ?_) (some ⟨n, s, v⟩),
    Ledger.keeps_update (fun e he => ?_) (some ⟨n, s, w⟩), hσ, (hm.1.there h _ hB).2.lt,
    ⟨(hm.1.setHere hA rfl).setThere hB rfl, hm.2⟩, ⟨hr.regs, hr.fresh, fun hk z ty hz => ?_⟩,
    hr.value, fun z u hz hu => ?_, fun z o' hz ho => ?_⟩
  · cases hA.symm.trans he
    exact Nat.le_refl n
  · cases hB.symm.trans he
    exact Nat.le_refl n
  · by_cases hzs : z = s
    · subst hzs
      exact ⟨h, w, hσ, Function.update_self ..⟩
    · obtain ⟨h', w', hσ', hh'⟩ := hr.slots hk z ty hz
      exact ⟨h', w', hσ', hB' hh' hzs⟩
  · by_cases hzs : z = s
    · subst hzs
      cases hc.symm.trans hu
      exact ⟨c, v, h, w, rfl, Function.update_self .., hσ, Function.update_self .., fun _ => hv⟩
    · obtain ⟨c', x', h', w', hu, hc', hσ', hh', hmo⟩ := hr.slot z u hz hu
      refine ⟨c', x', h', w', hu, hA' hc' hzs, hσ', hB' hh' hzs, ?_⟩
      rintro ⟨o', ho⟩
      refine hmo ⟨o', (mem_cons.mp ho).resolve_left fun he => ?_⟩
      cases he
      exact hzs rfl
  · rcases mem_cons.mp ho with he | ho
    · cases he
      rw [hc]
      exact Option.some_ne_none _
    · exact hr.opened z o' hz ho

theorem instruction_eq (n : Mapping) (i : Instruction) :
    n.instruction i = (i.mapOperands n.operand).mapDest n.reg := by
  cases i <;> rfl

theorem inner_act (I : Inlining E E' k G p q p')
    (hι : ∀ g c, cells.get? g = some c → ι₀ c = some c) {done : List Instruction}
    (hp : q.Path done l (i :: r)) (hc : q.code l = some c) (hsuf : i :: r <:+ c.body)
    (hopen : l = q.entry → ∀ s ty, .alloca s ty ∈ i :: r → τ s = none)
    (hr : G.Inner k q A B ws'.length ι done ρ τ σ) (hs : G.Stack k p q A B ι ws ws')
    (hm : (A.Pairs B).onto ι₀ ι small large) {v : Option Value} {small' : Array Value}
    (ha : act cells τ small i = some (.plain v small')) :
    ∃ e' m, Runs cells E' ⟨k, ⟨G.names.label l, (left q l (i :: r)).map G.names.instruction,
        copyTerminator G.names G.tail c.exit, σ⟩, ws', large⟩ m e' ∧
      Like k G p q ι₀ ⟨G.callee, ⟨l, r, c.exit, τ.put i.dest? v⟩,
        ⟨k, ⟨G.block, G.after, G.exit, ρ⟩, G.dest⟩ :: ws, small'⟩ e' := by
  have hi : i ∈ c.body := hsuf.subset mem_cons_self
  by_cases halloca : l = q.entry ∧ i.isAlloca = true
  · obtain ⟨rfl, halloca⟩ := halloca
    obtain ⟨s, ty, rfl, hslot⟩ := Proc.slot_of_isAlloca hc hi halloca
    cases ha
    obtain ⟨A', hA, hm', hr'⟩ := inner_alloca hslot (hopen rfl s ty mem_cons_self) hr hm
    rw [left_cons_of_isAlloca halloca]
    exact ⟨_, 0, .refl _, .inner (step_inside I.distinct hp hc hsuf hopen hr')
      (hs.extend (.refl ι) hA (.refl _ B)) hm'⟩
  rw [left_cons halloca, map_cons]
  have hdest : ∀ d ∈ i.dest?, q.Defines d ∧ ¬ q.Slot d := fun d hd =>
    ⟨Proc.defines_of_mem hc hi hd, fun hslot => halloca (I.distinct.isAlloca_of_slot hc hi hd hslot)⟩
  by_cases hslot : ∃ s ∈ i.uses, q.Slot s
  · obtain ⟨s, hmem, hslot⟩ := hslot
    have hname := (I.joins.reg_new hslot.defines).1
    rcases I.scratch.body hc i hi s hmem hslot with ⟨d, ty, rfl⟩ | ⟨o, rfl, hne⟩
    · obtain ⟨x, hx, ha⟩ := bind_eq_some_iff.mp ha
      obtain ⟨c₁, y, h, w, rfl, hA, hσ, hB, hmo⟩ := hr.slot s x hslot hx
      obtain ⟨-, y', hy, rfl⟩ := hm.1.here c₁ _ hA
      obtain ⟨-, w', hw, rfl⟩ := hm.1.there h _ hB
      have hlt := (Array.getElem?_eq_some_iff.mp hy).1
      have hlt' := (Array.getElem?_eq_some_iff.mp hw).1
      have hload : Machine.loaded large h = w' := by rw [Machine.loaded, hw, Option.getD_some]
      simp only [Machine.cell, if_pos hlt, Except.toOption, Option.bind_eq_bind, Option.bind_some,
        Machine.loaded, hy, Option.getD_some, Option.some.injEq, Outcome.plain.injEq] at ha
      obtain ⟨rfl, rfl⟩ := ha
      have hact : act cells σ large (G.names.instruction (.load d (.reg s) ty)) =
          some (.plain (some w') large) := by
        simp [Mapping.instruction, Instruction.mapDest, Instruction.mapOperands, hname, act, hσ,
          Machine.cell, hlt', Except.toOption, hload]
      refine ⟨_, 1, .one (.act hact), .inner (step_inside I.distinct
        hp hc hsuf hopen ((hr.put I.joins hdest (.some (hmo (I.scratch.stored hp hslot)))).note
          fun _ _ he => ?_)) hs hm⟩
      cases he
    · obtain ⟨x, hx, ha⟩ := bind_eq_some_iff.mp ha
      obtain ⟨c₁, hcell, ha⟩ := bind_eq_some_iff.mp ha
      obtain ⟨v', hv, ha⟩ := bind_eq_some_iff.mp ha
      cases ha
      -- what is stored is no slot itself
      have ho : ∀ z ∈ o.reg?, ¬ q.Slot z := by
        intro z hz hzs
        have huse : z ∈ (Instruction.store (.reg s) o).uses :=
          mem_filterMap.mpr ⟨o, mem_cons_of_mem _ mem_cons_self, hz⟩
        rcases I.scratch.body hc _ hi z huse hzs with ⟨d, ty, he⟩ | ⟨o', he, hne'⟩
        · cases he
        · cases he
          cases o <;> cases hz
          exact hne' rfl
      obtain ⟨w', hw', hmo⟩ := hr.operand I.joins ho v' hv
      obtain ⟨c₂, y, -, -, rfl, hA, -⟩ := hr.slot s x hslot hx
      have hlt := (hm.1.here c₂ _ hA).2.lt
      simp only [Machine.cell, if_pos hlt, Except.toOption, Option.some.injEq] at hcell
      subst hcell
      obtain ⟨A', B', h, hA', hB', hσ, hlt', hm', hr'⟩ := inner_store (o := o) hslot hr hm hx hmo
      have hact : act cells σ large (G.names.instruction (.store (.reg s) o)) =
          some (.plain none (large.setIfInBounds h w')) := by
        simp [Mapping.instruction, Instruction.mapDest, Instruction.mapOperands, hname, act, hσ,
          Machine.cell, hlt', Except.toOption, hw']
      exact ⟨_, 1, .one (.act hact), .inner (step_inside I.distinct hp hc hsuf hopen hr')
        (hs.extend (.refl ι) hA' hB') hm'⟩
  · obtain ⟨o', ho', hmo⟩ := acts hι hm (h := G.names.operand) (fun o ho =>
      hr.operand I.joins fun s hs' hslot' =>
        hslot ⟨s, mem_filterMap.mpr ⟨o, ho, hs'⟩, hslot'⟩) _ ha
    rw [← act_mapDest _ _ _ _ G.names.reg, ← instruction_eq] at ho'
    cases hmo with
    | plain he hv hm' =>
      have hr' := ((hr.extend he (.refl _ A) (.refl _ B)).put I.joins hdest hv).note (i := i)
        fun s o he' hs' => hslot ⟨s, by simp [he', Instruction.uses, Instruction.operands, Operand.reg?], hs'⟩
      rw [← dest?_instruction] at hr'
      exact ⟨_, 1, .one (.act ho'), .inner (step_inside I.distinct hp hc hsuf hopen hr')
        (hs.extend he (.refl _ A) (.refl _ B)) hm'⟩

variable (cells ws' large) in
theorem runs_return (I : Inlining E E' k G p q p') {done : List Instruction} {v : Option Value}
    (hr : G.Inner k q A B n ι done ρ τ σ) (hc : q.code l = some c)
    (hlead : leads τ c.exit = some (.back v)) :
    ∃ m w, Runs cells E' ⟨k, ⟨G.names.label l, [], copyTerminator G.names G.tail c.exit, σ⟩, ws', large⟩
        m ⟨k, ⟨G.tail, G.after, G.exit, σ.put G.dest w⟩, ws', large⟩ ∧ MovedOption id ι v w := by
  obtain ⟨o, hexit⟩ : ∃ o, c.exit = .ret o := by
    cases hc' : c.exit with
    | ret o => exact ⟨o, rfl⟩
    | _ => simp [hc', leads, Option.bind_eq_some_iff] at hlead
  have htail := I.joins.tail
  have hops : ∀ x ∈ c.exit.operands, Carried id ι (τ.value x) (σ.value (G.names.operand x)) :=
    fun x hx => hr.operand I.joins fun s hs => I.scratch.exit hc s (mem_filterMap.mpr ⟨x, hx, hs⟩)
  rw [hexit] at hlead hops ⊢
  cases hd : G.dest with
  | none =>
    rw [Graft.binding, hd] at htail
    obtain ⟨w, -, hm⟩ := (leads_carried id hops).2 v hlead
    exact ⟨_, w, .one (.goto I.target rfl htail rfl), hm⟩
  | some d =>
    obtain ⟨o, rfl⟩ := Option.ne_none_iff_exists'.mp (I.result (by simp [hd]) hc hexit)
    obtain ⟨x, hx, hlead⟩ := bind_eq_some_iff.mp hlead
    cases hlead
    obtain ⟨w, hw, hm⟩ := hops o mem_cons_self x hx
    have hmem : (G.names.label l, G.names.operand o) ∈ G.returns :=
      I.joins.returns.mpr ⟨l, c, hc, rfl, by rw [hexit]; rfl⟩
    have honce := I.joins.returns_once
    rw [Graft.binding, hd] at htail
    rcases hret : G.returns with _ | ⟨e₁, _ | ⟨e₂, es⟩⟩
    · rw [hret] at hmem
      cases hmem
    · rw [hret] at hmem htail
      cases mem_singleton.mp hmem
      refine ⟨_, some w, .head (.goto I.target rfl htail rfl) (.one (.act (v := some w) ?_)), .some hm⟩
      simp [act, hw, Regs.bind]
    · rw [hret] at hmem htail honce
      have hlookup : (⟨d, e₁ :: e₂ :: es, G.ty⟩ : Phi).incomingFor (G.names.label l) =
          some (G.names.operand o) := (Table.lookup_eq_some_iff honce).mpr hmem
      have hvs : incomings σ (G.names.label l) [⟨d, e₁ :: e₂ :: es, G.ty⟩] = some [w] :=
        incomings_cons.mpr ⟨w, [], bind_eq_some_iff.mpr ⟨_, hlookup, hw⟩, rfl, rfl⟩
      exact ⟨_, some w, .one (.goto I.target rfl htail hvs), .some hm⟩

theorem inner_moves (I : Inlining E E' k G p q p')
    (hι : ∀ g c, cells.get? g = some c → ι₀ c = some c)
    (hf : G.Inside k q A B ws'.length ι a b a') (hs : G.Stack k p q A B ι ws ws')
    (hm : (A.Pairs B).onto ι₀ ι small large)
    (h : Moves cells E ⟨G.callee, a, ⟨k, b, G.dest⟩ :: ws, small⟩ j e) :
    ∃ e' m, Runs cells E' ⟨k, a', ws', large⟩ m e' ∧ Like k G p q ι₀ e e' := by
  cases hf with
  | @intro done l r ρ τ σ c hp hc hsuf hopen hr =>
    cases h with
    | act ha => exact I.inner_act hι hp hc hsuf hopen hr hs hm ha
    | @call _ _ i r _ _ _ _ callee args q₁ b ha hq hn hd hb =>
      have hi : i ∈ c.body := hsuf.subset mem_cons_self
      have hslot : ∀ s ∈ i.uses, ¬ q.Slot s := by
        intro s hmem hslot
        rcases I.scratch.body hc i hi s hmem hslot with ⟨d, ty, rfl⟩ | ⟨o, rfl, -⟩ <;>
          simp [act, Option.bind_eq_some_iff] at ha
      have halloca : ¬ (l = q.entry ∧ i.isAlloca = true) := by
        rintro ⟨-, hal⟩
        cases i with
        | alloca d ty => simp [act] at ha
        | _ => cases hal
      have hdest : ∀ d ∈ i.dest?, q.Defines d ∧ ¬ q.Slot d := fun d hd =>
        ⟨Proc.defines_of_mem hc hi hd,
          fun hslot => halloca (I.distinct.isAlloca_of_slot hc hi hd hslot)⟩
      obtain ⟨o', ho', hmo⟩ := acts hι hm (h := G.names.operand) (fun o ho =>
        hr.operand I.joins fun s hs' => hslot s (mem_filterMap.mpr ⟨o, ho, hs'⟩)) _ ha
      rw [← act_mapDest _ _ _ _ G.names.reg, ← instruction_eq] at ho'
      cases hmo with
      | call _ hall =>
        obtain ⟨q₁', b', hq', hn', hb', hfits⟩ := I.opens hq hn hb hall B (ws'.length + 1)
        have hdepth : ws'.length + 1 < depthLimit :=
          Nat.lt_of_le_of_lt (Nat.succ_le_succ (Nat.le_succ_of_le hs.length_le)) hd
        have hwait : G.Inside k q A B ws'.length ι ⟨l, r, c.exit, τ⟩ ⟨G.block, G.after, G.exit, ρ⟩
            ⟨G.names.label l, (left q l r).map G.names.instruction,
              copyTerminator G.names G.tail c.exit, σ⟩ := by
          refine .intro hp.step hc ((suffix_cons i r).trans hsuf)
            (fun hl s ty hmem => hopen hl s ty (mem_cons_of_mem _ hmem)) (hr.note fun s o he hs' => ?_)
          exact hslot s (by simp [he, Instruction.uses, Instruction.operands, Operand.reg?]) hs'
        have hcall : Moves cells E' ⟨k, ⟨G.names.label l, _ :: (left q l r).map G.names.instruction,
            copyTerminator G.names G.tail c.exit, σ⟩, ws', large⟩ _ _ :=
          .call ho' hq' hn' hdepth hb'
        rw [dest?_instruction] at hcall
        rw [left_cons halloca, map_cons]
        exact ⟨_, 1, .one hcall, .outer hfits (.inner hwait hdest hs) hm⟩
    | @goto _ q₁ _ _ _ _ _ l₁ c₁ vs hq hlead hc₁ hvs =>
      cases I.callee.symm.trans hq
      have hedge : q.Edge l l₁ := ⟨c, hc, mem_successors_of_goto hlead⟩
      have hcopy : copyTerminator G.names G.tail c.exit = G.names.terminator c.exit := by
        cases hexit : c.exit with
        | ret o => cases o <;> simp [hexit, leads, Option.bind_eq_some_iff] at hlead
        | _ => rfl
      have hlead' := (leads_carried G.names.label fun x hx => hr.operand I.joins fun s hs' =>
        I.scratch.exit hc s (mem_filterMap.mpr ⟨x, hx, hs'⟩)).1 l₁ hlead
      have hcarried : ∀ x ∈ c₁.phis, ∀ o, x.incomingFor l = some o →
          ∃ o', (G.names.phi x).incomingFor (G.names.label l) = some o' ∧
            Carried id ι (τ.value o) (σ.value o') := by
        intro x hx o ho
        have hkeys := lookup_mapKeys (g := G.names.label) (h := G.names.operand) (l := l)
          (s := x.incoming) fun a ha => I.joins.label_inj
            (isSome_of_edge ((I.body.source hc₁ x hx a).mp ha)) (by rw [hc]; rfl)
        refine ⟨_, hkeys.trans (by rw [show x.incoming.lookup l = some o from ho]; rfl), ?_⟩
        obtain ⟨es₁, es₂, hes, -⟩ := List.lookup_eq_some_iff.mp ho
        have hmem : (l, o) ∈ x.incoming := hes ▸ mem_append_right _ mem_cons_self
        exact hr.operand I.joins fun s hs' =>
          I.scratch.phis hc₁ x hx s (mem_filterMap.mpr ⟨(l, o), hmem, hs'⟩)
      obtain ⟨us, hus, hall⟩ := incomings_moved hcarried hvs
      have hdests : ∀ d ∈ c₁.phis.map Phi.dest, q.Defines d ∧ ¬ q.Slot d := by
        intro d hd
        obtain ⟨x, hx, rfl⟩ := List.mem_map.mp hd
        exact ⟨⟨l₁, c₁, hc₁, mem_append_left _ hd⟩, I.distinct.not_slot_of_phi hc₁ hx⟩
      have hbind := hr.bind I.joins hdests hall
      rw [left_nil, hcopy]
      refine ⟨_, _, .one (.goto I.target hlead' (copied I.joins hc₁) hus), .inner (.intro
        (hp.jump hedge hc₁) hc₁ (suffix_refl _) (fun he => absurd (he ▸ hedge) (I.body.root l)) ?_)
        hs hm⟩
      simpa [Mapping.phi, Function.comp_def] using hbind
    | back hlead =>
      obtain ⟨m, w, hruns, hmo⟩ := I.runs_return cells ws' large hr hc hlead
      rw [left_nil]
      have htext : G.Text k p q k G.block G.after G.exit (G.turn G.block) G.after G.exit :=
        .same rfl I.joins.call
      rw [turn, if_pos rfl] at htext
      have hown := I.own_of_dest I.joins.call
      refine ⟨_, m, hruns, .outer (.ready htext (fun _ i hi => hown i ?_) ?_) hs hm⟩
      · exact mem_append_right _ (mem_cons_of_mem _ hi)
      · exact hr.toOuter.put (Subset.refl _)
          (fun _ d hd => hown _ (mem_append_right _ mem_cons_self) d hd) hmo

theorem moves (I : Inlining E E' k G p q p') (hι : ∀ g c, cells.get? g = some c → ι₀ c = some c)
    (hl : Like k G p q ι₀ c' e') (h : Moves cells E c' j e) :
    ∃ e'' m, Runs cells E' e' m e'' ∧ Like k G p q ι₀ e e'' := by
  cases hl with
  | outer hf hs hm =>
    obtain ⟨B', a'', large', m₁, hruns, hkeep, hm', hf'⟩ := settle I.joins hf hm
    obtain ⟨e'', m, hruns', hlike⟩ :=
      I.outer_moves hι hf' (hs.extend (.refl _) (.refl _ _) (hkeep _)) hm' h
    exact ⟨e'', m + m₁, hruns.trans hruns', hlike⟩
  | inner hf hs hm => exact I.inner_moves hι hf hs hm h

theorem ends (I : Inlining E E' k G p q p') {v : Option Value} {memory : Array Value}
    (hl : Like k G p q ι₀ e e') (h : Ends e v memory) :
    ∃ e'' m ι w large, Runs cells E' e' m e'' ∧ Ends e'' w large ∧ MovedOption id ι v w ∧
      Pairing.onto (.Partial id) ι₀ ι memory large := by
  cases h with
  | intro hlead =>
    cases hl with
    | outer hf hs hm =>
      cases hs
      obtain ⟨B', ⟨l', r', t', σ⟩, large', m, hruns, -, hm', hf'⟩ := settle I.joins hf hm
      obtain ⟨hrest, hexit, hr, -⟩ := hf'.nil
      cases hrest
      cases hexit
      obtain ⟨w, hw, hmo⟩ := (leads_same hr.regs _).2 _ hlead
      exact ⟨_, m, _, w, large', hruns, .intro hw, hmo, hm'.1.shared, hm'.2⟩

theorem yields (I : Inlining E E' k G p q p') (hι : ∀ g c, cells.get? g = some c → ι₀ c = some c)
    {memory memory' : Array Value} (hm : Pairing.onto (.Partial id) ι₀ ι₀ memory memory)
    {args : List Value} {v : Option Value} (hargs : List.Forall₂ (Moved id ι₀) args args)
    (h : Yields cells E memory f args v memory' n) :
    ∃ ι w large n', Yields cells E' memory f args w large n' ∧ MovedOption id ι v w ∧
      Pairing.onto (.Partial id) ι₀ ι memory' large := by
  obtain ⟨p₁, a, e, hf, ha, hs, hruns, hends⟩ := h
  obtain ⟨p₁', a', hf', ha', hs', hfits⟩ := I.opens hf ha hs hargs (fun _ => none) 0
  have hstart : Like k G p q ι₀ ⟨f, a, [], memory⟩ ⟨f, a', [], memory⟩ :=
    .outer (A := fun _ => none) hfits .nil
      ⟨⟨hm.1, fun _ _ h => (some_ne_none _ h.symm).elim, fun _ _ h => (some_ne_none _ h.symm).elim⟩,
        .refl _⟩
  obtain ⟨e₁, m₁, hruns₁, hlike⟩ := Runs.simulate (I.moves hι) hstart hruns
  obtain ⟨e₂, m₂, ι, w, large, hruns₂, hends₂, hmo, hmem⟩ := I.ends hlike hends
  exact ⟨ι, w, large, _, ⟨p₁', a', e₂, hf', ha', hs', hruns₁.trans hruns₂, hends₂⟩, hmo, hmem⟩

end Inlining

/-- What has a result in a program has it in the other one too. Pointers apart, both leave the same
in memory. -/
def Refines (cells : Table GlobalId Nat) (memory : Array Value) (E E' : Program) : Prop :=
  ∀ f args v memory' n, (∀ c, .ptr c ∉ args) → (∀ c, v ≠ some (.ptr c)) →
    Yields cells E memory f args v memory' n → ∃ large n', Yields cells E' memory f args v large n' ∧
      ∀ c x, c < memory.size → memory'[c]? = some x → (∀ d, x ≠ .ptr d) → large[c]? = some x

theorem Refines.refl {cells : Table GlobalId Nat} {memory : Array Value} (E : Program) :
    Refines cells memory E E := fun _ _ _ memory' n _ _ h => ⟨memory', n, h, fun _ _ _ hx _ => hx⟩

namespace Machine

variable {m n : Module} {cells : Table GlobalId Nat} {memory : Array Value} {budget : Nat}

theorem Closed.refines {E E' : Program} (hclosed : Closed ⟨m, cells, memory, budget⟩)
    (h : ∀ {ι₀ f args v memory' k}, (∀ g c, cells.get? g = some c → ι₀ c = some c) →
      Pairing.onto (.Partial id) ι₀ ι₀ memory memory → List.Forall₂ (Moved id ι₀) args args →
      Yields cells E memory f args v memory' k → ∃ ι w large k', Yields cells E' memory f args w large k' ∧
        MovedOption id ι v w ∧ Pairing.onto (.Partial id) ι₀ ι memory' large) :
    Refines cells memory E E' := by
  intro f args v memory' k hargs hv hyields
  obtain ⟨ι, w, large, k', hyields', hw, hmem⟩ := h
    (fun g c hg => Placing.within_eq_some.mpr ⟨hclosed.cells g c hg, rfl⟩) hclosed.paired
    (Moved.forall₂_of_no_ptr hargs) hyields
  obtain rfl := hw.eq_of_ne_ptr hv
  refine ⟨large, k', hyields', fun c x hc hx hptr => ?_⟩
  obtain ⟨x', z, hx', hz, hxz⟩ :=
    hmem.1.value c c (hmem.2 c c (Placing.within_eq_some.mpr ⟨hc, rfl⟩))
  cases hx.symm.trans hx'
  rw [← hxz.eq_of_ne_ptr hptr]
  exact hz

theorem call_refines (hglobals : n.globals = m.globals)
    (h : ∀ {cells memory budget}, Closed ⟨m, cells, memory, budget⟩ →
      Refines cells memory m.program n.program) :
    ∀ machine : Machine, machine.module = m → machine.Closed → ∀ g args r v,
      (∀ c, .ptr c ∉ args) → (∀ c, v ≠ some (.ptr c)) → machine.call g args = (r, .ok v) →
      ∃ budget r', { machine with module := n, budget := budget }.call g args = (r', .ok v) ∧
        ∀ name x, r.global? name = some x → (∀ c, x ≠ .ptr c) → r'.global? name = some x := by
  rintro ⟨_, cells, memory, budget⟩ rfl hclosed g args r v hargs hv hres
  obtain ⟨memory', left, hr⟩ := exists_call_fst ⟨_, cells, memory, budget⟩ g args
  rw [hres] at hr
  cases hr
  obtain ⟨k, hyields, -⟩ := call_eq_ok_iff.mp hres
  obtain ⟨large, k', hyields', hsame⟩ := h hclosed g args v memory' k hargs hv hyields
  refine ⟨k' + 1, _, call_eq_ok_iff.mpr ⟨k', hyields', (Nat.add_zero _).symm⟩, fun name x hx hptr => ?_⟩
  obtain ⟨y, hfind, hx⟩ := bind_eq_some_iff.mp hx
  obtain ⟨c, hcell, hx⟩ := bind_eq_some_iff.mp hx
  exact bind_eq_some_iff.mpr ⟨y, hglobals ▸ hfind, bind_eq_some_iff.mpr ⟨c, hcell,
    hsame c x (hclosed.cells y.id c hcell) hx hptr⟩⟩

end Machine

namespace Inline

variable {m n : Module} {caller : FuncId} {op : OpId} {call : Call} {callee f g : Function}
  {inlined : Inlined}

theorem proc_adoptCollector (f callee : Function) :
    (adoptCollector f callee).proc = f.proc ∧
      (adoptCollector f callee).isDeclaration = f.isDeclaration := by
  unfold adoptCollector
  split <;> exact ⟨rfl, rfl⟩

theorem program_of_isDeclaration (hf : m.function? caller = some f) (hd : f.isDeclaration = true)
    (hg : g.isDeclaration = true) : (m.setFunction caller g).program = m.program := by
  funext k
  by_cases hk : k = caller
  · subst hk
    simp [Module.program, hf, hd, Module.function?_setFunction_self hf, hg]
  · simp [Module.program, Module.function?_setFunction, hk]

theorem exists_inlining (h : m.Orderly) (hcall : findCall m caller op = .ok (.ok call))
    (hc : m.function? call.callee = some callee) (hs : callee.proc.Scratch)
    (hm : inlineCall m caller op = .ok (.ok (n, inlined))) :
    n.globals = m.globals ∧ (n.program = m.program ∨
      ∃ G p q p', Inlining m.program n.program caller G p q p') := by
  obtain ⟨f, callee', call', b, o, g, hf, hc', hcd, hl, hb, ho, hk, hg, rfl⟩ := inlineCall_eq_ok hm
  have hfind : findCall m caller op = .ok (.ok call') := by
    simp only [findCall, hf, hl, hb, bind_some, ho, hk]
  cases hcall.symm.trans hfind
  cases hc.symm.trans hc'
  obtain ⟨hne, -, hargs⟩ := fits_of_inlineCall hf hc hl hb ho hk hm
  have hkind : g.kind = f.kind := congrArg Header.kind (splice_header hg)
  obtain ⟨hproc, hadopt⟩ := proc_adoptCollector g callee
  refine ⟨rfl, ?_⟩
  by_cases hd : f.isDeclaration = true
  · refine .inl (program_of_isDeclaration hf hd (hadopt.trans ?_))
    have hblocks : f.graph.blocks.isEmpty = false :=
      isEmpty_eq_false_iff_exists_mem.mpr ⟨_, Table.get?_eq_some_iff.mp hb⟩
    rw [Function.isDeclaration, hblocks, Bool.or_false] at hd
    rw [Function.isDeclaration, hkind, hd, Bool.true_or]
  · right
    have hd : f.isDeclaration = false := by simpa using hd
    have hvf := h.functionValid hf hd
    have hvc := h.functionValid hc hcd
    have hnc := (h.bounded _ callee hc).numbered h.valid hc hcd
    obtain ⟨G, hJ, -, hdest, hcallee, -⟩ := splice_joins ((h.bounded _ f hf).numbered h.valid hf hd)
      hvf.connected (h.trap _ f hf) hnc hvc.connected.entry (h.trap _ callee hc) hb ho hk hargs hg
    have hbody : g.isDeclaration = false := by
      obtain ⟨b', hb', -⟩ := Function.code_eq_some.mp hJ.head
      rw [Function.isDeclaration, Bool.or_eq_false_iff] at hd ⊢
      exact ⟨by rw [hkind]; exact hd.1,
        isEmpty_eq_false_iff_exists_mem.mpr ⟨_, Table.get?_eq_some_iff.mp hb'⟩⟩
    refine ⟨G, f.proc, callee.proc, g.proc, hJ, Module.program_eq_some.mpr ⟨f, hf, hd, rfl⟩,
      Module.program_eq_some.mpr ⟨_, Module.function?_setFunction_self hf, hadopt.trans hbody, hproc⟩,
      Module.program_eq_some.mpr ⟨callee, hcallee ▸ hc, hcd, rfl⟩, fun {k} hk => ?_, hvf.connected,
      hvc.connected, hnc.distinct, hs, fun hsome l c v hl hexit hnone => ?_⟩
    · rw [Module.program, Module.program, Module.function?_setFunction, if_neg hk]
    · obtain ⟨h', hf', -, hreturns⟩ := hvf.calls hJ.call (mem_append_right _ mem_cons_self)
      rw [hcallee] at hf'
      cases hc.symm.trans hf'
      have hv := hvc.returns hl hexit
      rw [hreturns (isSome_iff_ne_none.mpr hsome), hnone] at hv
      cases hv

/-- Inlining a call keeps what every call does that has a result and is given no pointers, if the
cells that the callee allocates on entry are its own: it only loads and stores them, and never loads
one before it has stored it. -/
theorem inlineCall_preserves (h : m.Orderly) (hcall : findCall m caller op = .ok (.ok call))
    (hc : m.function? call.callee = some callee) (hs : callee.proc.Scratch)
    (hm : inlineCall m caller op = .ok (.ok (n, inlined))) :
    (∀ budget, (Machine.ofModule m budget).Closed ∧
      { Machine.ofModule m budget with module := n } = Machine.ofModule n budget) ∧
    ∀ machine : Machine, machine.module = m → machine.Closed → ∀ g args r v,
      (∀ c, .ptr c ∉ args) → (∀ c, v ≠ some (.ptr c)) → machine.call g args = (r, .ok v) →
      ∃ budget r', { machine with module := n, budget := budget }.call g args = (r', .ok v) ∧
        ∀ name x, r.global? name = some x → (∀ c, x ≠ .ptr c) → r'.global? name = some x := by
  obtain ⟨hglobals, hprogram⟩ := exists_inlining h hcall hc hs hm
  refine ⟨fun budget => ⟨Machine.closed_ofModule m budget, ?_⟩,
    Machine.call_refines hglobals fun hclosed => ?_⟩
  · rw [Machine.ofModule, Machine.ofModule, hglobals]
  · rcases hprogram with he | ⟨G, p, q, p', I⟩
    · exact he ▸ .refl _
    · exact hclosed.refines fun hι hm hargs => I.yields hι hm hargs

theorem scratch_clip (hc : valve.function? ⟨0⟩ = some callee) : callee.proc.Scratch := by
  have hblocks : ∀ b ∈ callee.graph.blocks.values, b.code.phis = [] ∧
      (⟨1⟩ : Reg) ∉ b.code.exit.uses ∧ callee.proc.entry ∉ b.code.exit.successors ∧
      ∀ i ∈ b.code.body, (⟨1⟩ : Reg) ∈ i.uses →
        i = .load ⟨3⟩ (.reg ⟨1⟩) .i64 ∨ i = .store (.reg ⟨1⟩) (.reg ⟨0⟩) := by
    cases hc
    decide
  have hentry : ∃ c, callee.proc.code callee.proc.entry = some c ∧
      c.allocas = [.alloca ⟨1⟩ .i64] ∧ .store (.reg ⟨1⟩) (.reg ⟨0⟩) ∈ c.body ∧
      ∀ d ty, .load d (.reg ⟨1⟩) ty ∉ c.body := by
    cases hc
    exact ⟨_, rfl, rfl, mem_cons_of_mem _ mem_cons_self, by simp [Block.code, Operation.plain]⟩
  obtain ⟨c₀, hc₀, hallocas, hstore, hload⟩ := hentry
  have hslot : ∀ s, callee.proc.Slot s → s = ⟨1⟩ := by
    rintro s ⟨ty, hs⟩
    obtain ⟨c, hc, hs⟩ := Proc.mem_allocas.mp hs
    cases hc₀.symm.trans hc
    have hmem : .alloca s ty ∈ c₀.allocas := mem_filter.mpr hs
    rw [hallocas] at hmem
    cases mem_singleton.mp hmem
    rfl
  have hcode : ∀ {l c}, callee.proc.code l = some c → ∃ b ∈ callee.graph.blocks.values, b.code = c := by
    intro l c hc
    obtain ⟨b, hb, rfl⟩ := Function.code_eq_some.mp hc
    exact ⟨b, Table.mem_values_iff.mpr ⟨l, hb⟩, rfl⟩
  constructor
  case phis =>
    intro l c hc x hx
    obtain ⟨b, hb, rfl⟩ := hcode hc
    rw [(hblocks b hb).1] at hx
    cases hx
  case body =>
    intro l c hc i hi s hmem hs
    obtain ⟨b, hb, rfl⟩ := hcode hc
    cases hslot s hs
    rcases (hblocks b hb).2.2.2 i hi hmem with rfl | rfl
    · exact .inl ⟨_, _, rfl⟩
    · exact .inr ⟨_, rfl, by decide⟩
  case exit =>
    intro l c hc s hmem hs
    obtain ⟨b, hb, rfl⟩ := hcode hc
    cases hslot s hs
    exact (hblocks b hb).2.1 hmem
  case stored =>
    intro done l d s ty rest hp hs
    cases hslot s hs
    have hroot : ∀ k, ¬ callee.proc.Edge k callee.proc.entry := by
      rintro k ⟨c, hc, hmem⟩
      obtain ⟨b, hb, rfl⟩ := hcode hc
      exact (hblocks b hb).2.2.1 hmem
    exact ⟨_, Proc.stored_of_entry hroot hc₀ hload hstore hp⟩

/-- The call in the loop of `valve` is inlined, and its slot is stored each time before it is
loaded. -/
theorem inlineCall_preserves_valve : valve.Orderly ∧ ∃ n inlined budget r',
    inlineCall valve ⟨1⟩ ⟨2⟩ = .ok (.ok (n, inlined)) ∧
      (Machine.ofModule n budget).call ⟨1⟩ [.i64 7] = (r', .ok (some (.i64 10))) := by
  have h : valve.Orderly := Module.orderly_iff.mpr ⟨by cbv, by decide +kernel⟩
  have hsome : ∃ n inlined, inlineCall valve ⟨1⟩ ⟨2⟩ = .ok (.ok (n, inlined)) := ⟨_, _, rfl⟩
  obtain ⟨n, inlined, hm⟩ := hsome
  have hrun : ((Machine.ofModule valve 100).call ⟨1⟩ [.i64 7]).2 = .ok (some (.i64 10)) := by
    decide +kernel
  obtain ⟨hfresh, hcalls⟩ := inlineCall_preserves h rfl rfl (scratch_clip rfl) hm
  obtain ⟨budget, r', hr', -⟩ := hcalls _ rfl (hfresh 100).1 ⟨1⟩ [.i64 7] _ (some (.i64 10)) (by simp)
    (by simp) (Prod.ext rfl hrun)
  have hstart : { Machine.ofModule valve 100 with module := n, budget := budget } =
      Machine.ofModule n budget := by
    rw [← (hfresh budget).2]
    rfl
  exact ⟨h, n, inlined, budget, r', hm, hstart ▸ hr'⟩

end Inline

end SiteFusion
