import SiteFusion.Proofs.Scopes
import SiteFusion.Proofs.ValidInlining

namespace SiteFusion

open List Option

def Phi.keeping (q : Phi) (from_ : BlockId → Bool) : Phi :=
  { q with incoming := q.incoming.filter fun e => from_ e.1 }

namespace Phi

variable {q : Phi} {s t : BlockId → Bool}

theorem keeping_keeping (q : Phi) (s t : BlockId → Bool) :
    (q.keeping s).keeping t = q.keeping fun a => s a && t a := by
  simp only [keeping, List.filter_filter, Bool.and_comm]

theorem keeping_eq_self (h : ∀ e ∈ q.incoming, s e.1 = true) : q.keeping s = q := by
  rw [keeping, filter_eq_self.mpr h]

theorem incomingFor_keeping {a : BlockId} (ha : s a = true) :
    (q.keeping s).incomingFor a = q.incomingFor a := by
  simp only [keeping, incomingFor]
  induction q.incoming with
  | nil => rfl
  | cons e es ih =>
    obtain ⟨b, o⟩ := e
    rw [filter_cons, Table.lookup_cons_ite a b]
    by_cases hb : a = b
    · simp [← hb, ha]
    · rw [if_neg hb, ← ih]
      split
      · rw [Table.lookup_cons_ite, if_neg hb]
      · rfl

end Phi

namespace Proc

variable {p p' p'' : Proc} {fold : Terminator → Option BlockId} {k : BlockId} {r : Reg}

/-- Whether control may go from one block to another one. -/
def joins (p : Proc) (a b : BlockId) : Bool :=
  (p.code a).any fun c => c.exit.successors.contains b

theorem joins_iff {a b : BlockId} : p.joins a b = true ↔ p.Edge a b := by
  simp [joins, Edge, Option.any_eq_true]

/-- What is left of some code when terminators may have been folded. -/
structure Prunes (fold : Terminator → Option BlockId) (p p' : Proc) : Prop where
  params : p'.params = p.params
  varargs : p'.varargs = p.varargs
  entry : p'.entry = p.entry
  code : ∀ {k c'}, p'.code k = some c' → ∃ c, p.code k = some c ∧ c'.body = c.body ∧
    c'.phis = c.phis.map (fun q => q.keeping fun a => p'.joins a k) ∧
    (c'.exit = c.exit ∨ ∃ t, fold c.exit = some t ∧ c'.exit = .branch t)

namespace Prunes

theorem refl (hp : p.Connected) : Prunes fold p p := by
  refine ⟨rfl, rfl, rfl, fun {k c} hc => ⟨c, hc, rfl, ?_, .inl rfl⟩⟩
  refine ((map_congr_left fun q hq => ?_).trans (List.map_id c.phis)).symm
  exact Phi.keeping_eq_self fun e he =>
    joins_iff.mpr ((hp.source hc q hq e.1).mp (List.mem_map_of_mem he))

theorem step (h : Prunes fold p p') (b : BlockId) (others : List BlockId)
    (hparams : p''.params = p'.params) (hvarargs : p''.varargs = p'.varargs)
    (hentry : p''.entry = p'.entry)
    (hjoins : ∀ a k, p''.joins a k = (p'.joins a k && !(a = b && others.contains k)))
    (hcode : ∀ {k c''}, p''.code k = some c'' → ∃ c', p'.code k = some c' ∧ c''.body = c'.body ∧
      c''.phis = (if others.contains k then c'.phis.map fun q => q.removeIncoming b else c'.phis) ∧
      (c''.exit = c'.exit ∨ ∃ t, (∀ c, p.code k = some c → fold c.exit = some t) ∧
        c''.exit = .branch t)) : Prunes fold p p'' := by
  refine ⟨hparams.trans h.params, hvarargs.trans h.varargs, hentry.trans h.entry,
    fun {k c''} hc'' => ?_⟩
  obtain ⟨c', hc', hbody', hphis', hexit'⟩ := hcode hc''
  obtain ⟨c, hc, hbody, hphis, hexit⟩ := h.code hc'
  refine ⟨c, hc, hbody'.trans hbody, ?_, ?_⟩
  · have hkeep : ∀ q : Phi, (q.keeping fun a => p''.joins a k) =
        (q.keeping fun a => p'.joins a k).keeping fun a => !(a = b && others.contains k) := by
      intro q
      rw [Phi.keeping_keeping]
      simp only [hjoins]
    simp only [hkeep, hphis', hphis]
    split
    · next hk =>
      rw [contains_iff_mem] at hk
      simp [Phi.removeIncoming, Phi.keeping, hk]
    · next hk =>
      rw [contains_iff_mem] at hk
      simp [Phi.keeping, hk]
  · rcases hexit' with he | ⟨t, ht, he⟩
    · rw [he]
      exact hexit
    · exact .inr ⟨t, ht c hc, he⟩

section

variable (h : Prunes fold p p') (hfold : ∀ {t l}, fold t = some l → l ∈ t.successors)
  {l : List BlockId}

include h hfold

theorem edge {a b : BlockId} (he : p'.Edge a b) : p.Edge a b := by
  obtain ⟨c', hc', hb⟩ := he
  obtain ⟨c, hc, -, -, hexit⟩ := h.code hc'
  refine ⟨c, hc, ?_⟩
  rcases hexit with he | ⟨t, ht, he⟩
  · rwa [← he]
  · rw [he, Terminator.successors, mem_singleton] at hb
    exact hb ▸ hfold ht

theorem walk (w : p'.Walk k l) : p.Walk k l := by
  have hsome : ∀ {k}, (p'.code k).isSome → (p.code k).isSome := by
    intro k hk
    obtain ⟨c', hc'⟩ := isSome_iff_exists.mp hk
    obtain ⟨c, hc, -⟩ := h.code hc'
    rw [hc]
    rfl
  induction w with
  | start he =>
    rw [h.entry] at he ⊢
    exact .start (hsome he)
  | step _ he hb ih => exact .step ih (h.edge hfold he) (hsome hb)

theorem connected (hp : p.Connected) (hentry : (p'.code p'.entry).isSome)
    (htarget : ∀ {a b}, p'.Edge a b → (p'.code b).isSome) : p'.Connected where
  entry := hentry
  root k he := hp.root k (h.entry ▸ h.edge hfold he)
  target := htarget
  once {k c'} hc' q' hq' := by
    obtain ⟨c, hc, -, hphis, -⟩ := h.code hc'
    rw [hphis] at hq'
    obtain ⟨q, hq, rfl⟩ := List.mem_map.mp hq'
    exact (filter_sublist.map Prod.fst).nodup (hp.once hc q hq)
  source {k c'} hc' q' hq' a := by
    obtain ⟨c, hc, -, hphis, -⟩ := h.code hc'
    rw [hphis] at hq'
    obtain ⟨q, hq, rfl⟩ := List.mem_map.mp hq'
    have hsource := hp.source hc q hq a
    constructor
    · intro ha
      obtain ⟨e, he, rfl⟩ := List.mem_map.mp ha
      exact joins_iff.mp (mem_filter.mp he).2
    · intro ha
      obtain ⟨e, he, rfl⟩ := List.mem_map.mp (hsource.mpr (h.edge hfold ha))
      exact List.mem_map_of_mem (mem_filter.mpr ⟨he, joins_iff.mpr ha⟩)

omit hfold in
theorem defs {c' : Code} (hc' : p'.code k = some c') :
    ∃ c, p.code k = some c ∧ c'.defs = c.defs := by
  obtain ⟨c, hc, hbody, hphis, -⟩ := h.code hc'
  refine ⟨c, hc, ?_⟩
  rw [Code.defs, Code.defs, hbody, hphis, List.map_map]
  rfl

theorem visible (w : p'.Walk k l) {before : List Reg} (hv : p.Visible k before r) :
    p'.Visible k before r := by
  cases hv with
  | param hr => exact .param (h.params ▸ hr)
  | here hr => exact .here hr
  | @above k' c hne hc hr hd =>
    have hmem := hd l (h.walk hfold w)
    obtain ⟨c', hc'⟩ := isSome_iff_exists.mp (w.isSome_of_mem hmem)
    obtain ⟨c₀, hc₀, hdefs⟩ := h.defs hc'
    cases hc.symm.trans hc₀
    exact .above hne hc' (hdefs ▸ hr) fun l w => hd l (h.walk hfold w)

theorem scopes (hp : p.Scoped) (hall : ∀ {k c'}, p'.code k = some c' → ∃ l, p'.Walk k l) :
    p'.Scoped where
  incoming {k c'} hc' q' hq' a r hr d' hd' := by
    obtain ⟨c, hc, -, hphis, -⟩ := h.code hc'
    obtain ⟨d, hd, hdefs⟩ := h.defs hd'
    obtain ⟨l, w⟩ := hall hd'
    rw [hphis] at hq'
    obtain ⟨q, hq, rfl⟩ := List.mem_map.mp hq'
    rw [hdefs]
    exact h.visible hfold w (hp.incoming hc q hq (mem_filter.mp hr).1 hd)
  body {k c'} hc' pre i post hi r hr := by
    obtain ⟨c, hc, hbody, hphis, -⟩ := h.code hc'
    obtain ⟨l, w⟩ := hall hc'
    rw [hbody] at hi
    rw [hphis, List.map_map]
    exact h.visible hfold w (hp.body hc hi r hr)
  exit {k c'} hc' r hr := by
    obtain ⟨c, hc, -, -, hexit⟩ := h.code hc'
    obtain ⟨c₀, hc₀, hdefs⟩ := h.defs hc'
    cases hc.symm.trans hc₀
    obtain ⟨l, w⟩ := hall hc'
    rw [hdefs]
    rcases hexit with he | ⟨t, -, he⟩
    · exact h.visible hfold w (hp.exit hc r (he ▸ hr))
    · rw [he] at hr
      cases hr

end

end Prunes

end Proc

end SiteFusion
