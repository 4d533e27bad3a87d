import SiteFusion.Proofs.Grafts

namespace SiteFusion

open List Option

open Inline

namespace Graft

variable {G : Graft} {p q p' : Proc} {k k₀ a b : BlockId} {c : Code} {r : Reg} {l : List BlockId}
  {c' : Code} {i : Instruction} {n : Mapping} {o : Reg} {post pre : List Instruction}
  {t : Terminator} {x : Phi}

@[simp]
theorem exit_hoist : (G.hoist p q k c).exit = c.exit := by
  unfold hoist
  split <;> rfl

@[simp]
theorem phis_hoist : (G.hoist p q k c).phis = c.phis := by
  unfold hoist
  split <;> rfl

theorem Joins.exists_old (h : G.Joins p q p') (hc : p.code k = some c) :
    ∃ c', p'.code k = some c' ∧ c'.phis = c.phis.map fun q => q.retarget G.block G.tail := by
  by_cases hk : k = G.block
  · subst hk
    cases h.call.symm.trans hc
    exact ⟨_, h.head, phis_hoist⟩
  · exact ⟨_, h.old hk hc, phis_hoist⟩

theorem Joins.isSome_old (h : G.Joins p q p') (hk : (p.code k).isSome) : (p'.code k).isSome := by
  obtain ⟨c, hc⟩ := isSome_iff_exists.mp hk
  obtain ⟨c', hc', -⟩ := h.exists_old hc
  rw [hc']
  rfl

theorem Joins.isSome_label (h : G.Joins p q p') (hk : (q.code k).isSome) :
    (p'.code (G.names.label k)).isSome := by
  obtain ⟨c, hc⟩ := isSome_iff_exists.mp hk
  rw [h.copy hc]
  rfl

theorem Joins.label_ne (h : G.Joins p q p') (hk : p.code k = some c) (hc : c ≠ .dead)
    (hk₀ : (q.code k₀).isSome) : G.names.label k₀ ≠ k := by
  rintro rfl
  obtain ⟨c₀, hc₀⟩ := isSome_iff_exists.mp hk₀
  rcases h.label_new hc₀ with hnone | ⟨-, hdead⟩
  · cases hnone.symm.trans hk
  · exact hc (Option.some.inj (hk.symm.trans hdead))

theorem Joins.old_ne (h : G.Joins p q p') (hk₀ : q.code k₀ = some c) (hc : c ≠ .dead) :
    p.code (G.names.label k₀) = none :=
  (h.label_new hk₀).resolve_right fun hd => hc hd.1

theorem ne_dead_of_phi (h : x ∈ c.phis) : c ≠ .dead := by
  rintro rfl
  cases h

theorem ne_dead_of_successor (h : b ∈ c.exit.successors) : c ≠ .dead := by
  rintro rfl
  cases h

theorem Joins.block_ne_dead (_ : G.Joins p q p') :
    (⟨G.phis, G.before ++ .call G.dest G.callee G.args :: G.after, G.exit⟩ : Code) ≠ .dead := by
  intro h
  simp [Code.dead] at h

theorem successors_terminator (n : Mapping) (t : Terminator) :
    (n.terminator t).successors = t.successors.map n.label := by
  rw [Mapping.terminator, Function.successors_mapTargets]
  cases t <;> rfl

theorem Joins.origin (h : G.Joins p q p') (hc : p'.code k = some c) : (∃ c₀, p.code k = some c₀) ∨
    k = G.tail ∨ ∃ k₀, (∃ c₀, q.code k₀ = some c₀) ∧ G.names.label k₀ = k := by
  have hcover := h.cover (k := k) (by rw [hc]; rfl)
  simpa only [isSome_iff_exists] using hcover

theorem Joins.edge_cases (h : G.Joins p q p') (he : p'.Edge a b) :
    (a ≠ G.block ∧ p.Edge a b) ∨ (a = G.block ∧ b = G.names.label q.entry) ∨
      (a = G.tail ∧ p.Edge G.block b) ∨
      (∃ a₀ b₀, q.Edge a₀ b₀ ∧ a = G.names.label a₀ ∧ b = G.names.label b₀) ∨
      ∃ a₀ c v, q.code a₀ = some c ∧ c.exit = .ret v ∧ a = G.names.label a₀ ∧ b = G.tail := by
  obtain ⟨c', hc', hb⟩ := he
  rcases h.origin hc' with ⟨c, hc⟩ | rfl | ⟨a₀, ⟨c, hc⟩, rfl⟩
  · by_cases ha : a = G.block
    · subst ha
      cases h.head.symm.trans hc'
      rw [exit_hoist] at hb
      exact .inr (.inl ⟨rfl, mem_singleton.mp hb⟩)
    · cases (h.old ha hc).symm.trans hc'
      rw [exit_hoist] at hb
      exact .inl ⟨ha, c, hc, hb⟩
  · cases h.tail.symm.trans hc'
    exact .inr (.inr (.inl ⟨rfl, _, h.call, hb⟩))
  · have hexit : c'.exit = copyTerminator G.names G.tail c.exit := by
      cases (h.copy hc).symm.trans hc'
      dsimp only [Mapping.code]
      split <;> rfl
    rw [hexit] at hb
    cases ht : c.exit with
    | ret v =>
      rw [ht] at hb
      exact .inr (.inr (.inr (.inr ⟨a₀, c, v, hc, ht, rfl, mem_singleton.mp hb⟩)))
    | _ =>
      rw [ht] at hb
      obtain ⟨b₀, hb₀, rfl⟩ := List.mem_map.mp (successors_terminator G.names _ ▸ hb)
      exact .inr (.inr (.inr (.inl ⟨a₀, b₀, ⟨c, hc, ht ▸ hb₀⟩, rfl, rfl⟩)))

theorem Joins.edge_old (h : G.Joins p q p') (ha : a ≠ G.block) (he : p.Edge a b) : p'.Edge a b := by
  obtain ⟨c, hc, hb⟩ := he
  exact ⟨_, h.old ha hc, exit_hoist.symm ▸ hb⟩

theorem Joins.edge_tail (h : G.Joins p q p') (he : p.Edge G.block b) : p'.Edge G.tail b := by
  obtain ⟨c, hc, hb⟩ := he
  cases h.call.symm.trans hc
  exact ⟨_, h.tail, hb⟩

theorem Joins.exists_copy (h : G.Joins p q p') (hc : q.code k = some c) :
    ∃ c', p'.code (G.names.label k) = some c' ∧ c'.phis = c.phis.map G.names.phi ∧
      c'.exit = copyTerminator G.names G.tail c.exit := by
  refine ⟨_, h.copy hc, ?_⟩
  split <;> exact ⟨rfl, rfl⟩

theorem Joins.edge_copy (h : G.Joins p q p') (he : q.Edge a b) :
    p'.Edge (G.names.label a) (G.names.label b) := by
  obtain ⟨c, hc, hb⟩ := he
  obtain ⟨c', hc', -, hexit⟩ := h.exists_copy hc
  refine ⟨c', hc', ?_⟩
  rw [hexit]
  cases ht : c.exit with
  | ret v =>
    rw [ht] at hb
    cases hb
  | _ =>
    rw [ht] at hb
    exact (successors_terminator G.names _).symm ▸ List.mem_map_of_mem hb

theorem Joins.edge_return (h : G.Joins p q p') (hc : q.code k = some c) {v : Option Operand}
    (hv : c.exit = .ret v) : p'.Edge (G.names.label k) G.tail := by
  obtain ⟨c', hc', -, hexit⟩ := h.exists_copy hc
  refine ⟨c', hc', ?_⟩
  rw [hexit, hv]
  exact mem_singleton.mpr rfl

theorem map_fst_retarget (x : Phi) (old new : BlockId) :
    (x.retarget old new).incoming.map Prod.fst =
      (x.incoming.map Prod.fst).map fun a => if a = old then new else a := by
  simp [Phi.retarget]

theorem map_fst_phi (n : Mapping) (x : Phi) :
    (n.phi x).incoming.map Prod.fst = (x.incoming.map Prod.fst).map n.label := by
  simp [Mapping.phi]

theorem binding_phis (hx : x ∈ G.binding.1) : x.incoming = G.returns := by
  unfold binding Inline.binding at hx
  split at hx
  · cases hx
  · split at hx
    · cases hx
    · cases hx
    · rw [mem_singleton.mp hx]

theorem Joins.phi_cases (h : G.Joins p q p') (hc : p'.code k = some c) (hx : x ∈ c.phis) :
    (∃ c₀ x₀, p.code k = some c₀ ∧ x₀ ∈ c₀.phis ∧ x = x₀.retarget G.block G.tail) ∨
      (k = G.tail ∧ x.incoming = G.returns) ∨
      ∃ k₀ c₀ x₀, q.code k₀ = some c₀ ∧ x₀ ∈ c₀.phis ∧ k = G.names.label k₀ ∧ x = G.names.phi x₀ := by
  rcases h.origin hc with ⟨c₀, hc₀⟩ | rfl | ⟨k₀, ⟨c₀, hc₀⟩, rfl⟩
  · obtain ⟨c', hc', hphis⟩ := h.exists_old hc₀
    cases hc.symm.trans hc'
    obtain ⟨x₀, hx₀, rfl⟩ := List.mem_map.mp (hphis ▸ hx)
    exact .inl ⟨c₀, x₀, hc₀, hx₀, rfl⟩
  · cases h.tail.symm.trans hc
    exact .inr (.inl ⟨rfl, binding_phis hx⟩)
  · obtain ⟨c', hc', hphis, -⟩ := h.exists_copy hc₀
    cases hc.symm.trans hc'
    obtain ⟨x₀, hx₀, rfl⟩ := List.mem_map.mp (hphis ▸ hx)
    exact .inr (.inr ⟨k₀, c₀, x₀, hc₀, hx₀, rfl, rfl⟩)

/-- Nothing leads from the caller's blocks to a copy, but from the call to the first one. -/
theorem Joins.not_edge_label (h : G.Joins p q p') (hp : p.Connected) (hc : q.code k₀ = some c)
    (hd : c ≠ .dead) : ¬ p.Edge a (G.names.label k₀) := by
  intro he
  have hsome := hp.target he
  rw [h.old_ne hc hd] at hsome
  cases hsome

theorem Joins.not_edge_tail (h : G.Joins p q p') (hp : p.Connected) : ¬ p.Edge a G.tail := by
  intro he
  have hsome := hp.target he
  rw [h.tail_new] at hsome
  cases hsome

theorem Joins.edge_old_iff (h : G.Joins p q p') (hq : q.Connected) (hc : p.code k = some c)
    (hd : c ≠ .dead) :
    p'.Edge a k ↔ (a ≠ G.block ∧ p.Edge a k) ∨ (a = G.tail ∧ p.Edge G.block k) := by
  constructor
  · intro he
    rcases h.edge_cases he with ha | ⟨-, hk⟩ | ha | ⟨a₀, b₀, he₀, -, hk⟩ | ⟨-, -, -, -, -, -, hk⟩
    · exact .inl ha
    · exact absurd hk.symm (h.label_ne hc hd hq.entry)
    · exact .inr ha
    · exact absurd hk.symm (h.label_ne hc hd (hq.target he₀))
    · cases (hk ▸ hc).symm.trans h.tail_new
  · rintro (⟨ha, he⟩ | ⟨rfl, he⟩)
    · exact h.edge_old ha he
    · exact h.edge_tail he

/-- The predecessors of the block after the call are the copies of blocks that return. -/
theorem Joins.edge_tail_iff (h : G.Joins p q p') (hp : p.Connected) (hq : q.Connected) :
    p'.Edge a G.tail ↔ a ∈ G.returns.map Prod.fst := by
  constructor
  · intro he
    rcases h.edge_cases he with ⟨-, he⟩ | ⟨-, hk⟩ | ⟨-, he⟩ | ⟨a₀, b₀, he₀, -, hk⟩ |
      ⟨a₀, c, v, hc, hv, rfl, -⟩
    · exact absurd he (h.not_edge_tail hp)
    · exact absurd hk.symm (h.label_ne_tail hq.entry)
    · exact absurd he (h.not_edge_tail hp)
    · exact absurd hk.symm (h.label_ne_tail (hq.target he₀))
    · obtain ⟨o, ho⟩ : ∃ o, returned? G.names G.result c.exit = some o := by
        rw [hv]
        cases v <;> exact ⟨_, rfl⟩
      exact List.mem_map.mpr ⟨(_, o), h.returns.mpr ⟨a₀, c, hc, rfl, ho⟩, rfl⟩
  · intro ha
    obtain ⟨⟨a', o⟩, hmem, rfl⟩ := List.mem_map.mp ha
    obtain ⟨k₀, c, hc, rfl, ho⟩ := h.returns.mp hmem
    cases hv : c.exit with
    | ret v => exact h.edge_return hc hv
    | _ =>
      rw [hv] at ho
      cases ho

theorem Joins.edge_label_iff (h : G.Joins p q p') (hp : p.Connected) (hq : q.Connected)
    (hc : q.code k₀ = some c) (hd : c ≠ .dead) (hne : k₀ ≠ q.entry) :
    p'.Edge a (G.names.label k₀) ↔ ∃ a₀, q.Edge a₀ k₀ ∧ G.names.label a₀ = a := by
  have hsome : (q.code k₀).isSome := by rw [hc]; rfl
  constructor
  · intro he
    rcases h.edge_cases he with ⟨-, he⟩ | ⟨-, hk⟩ | ⟨-, he⟩ | ⟨a₀, b₀, he₀, rfl, hk⟩ |
      ⟨-, -, -, -, -, -, hk⟩
    · exact absurd he (h.not_edge_label hp hc hd)
    · exact absurd (h.label_inj hsome hq.entry hk) hne
    · exact absurd he (h.not_edge_label hp hc hd)
    · cases h.label_inj hsome (hq.target he₀) hk
      exact ⟨a₀, he₀, rfl⟩
    · exact absurd hk (h.label_ne_tail hsome)
  · rintro ⟨a₀, he, rfl⟩
    exact h.edge_copy he

theorem isSome_of_edge (h : p.Edge a b) : (p.code a).isSome := by
  obtain ⟨c, hc, -⟩ := h
  rw [hc]
  rfl

theorem Joins.connected (h : G.Joins p q p') (hp : p.Connected) (hq : q.Connected)
    (hnil : ∀ c, q.code q.entry = some c → c.phis = []) : p'.Connected := by
  have hentry : G.tail ≠ p.entry := fun he => by
    have hsome := hp.entry
    rw [← he, h.tail_new] at hsome
    cases hsome
  constructor
  case entry =>
    rw [h.entry]
    exact h.isSome_old hp.entry
  case root =>
    intro a he
    rw [h.entry] at he
    rcases h.edge_cases he with ⟨-, he⟩ | ⟨-, hk⟩ | ⟨-, he⟩ | ⟨a₀, b₀, he₀, -, hk⟩ |
      ⟨-, -, -, -, -, -, hk⟩
    · exact hp.root a he
    · exact h.label_ne_entry hq.entry hk.symm
    · exact hp.root _ he
    · exact h.label_ne_entry (hq.target he₀) hk.symm
    · exact hentry hk.symm
  case target =>
    intro a b he
    rcases h.edge_cases he with ⟨-, he⟩ | ⟨-, rfl⟩ | ⟨-, he⟩ | ⟨a₀, b₀, he₀, -, rfl⟩ |
      ⟨-, -, -, -, -, -, rfl⟩
    · exact h.isSome_old (hp.target he)
    · exact h.isSome_label hq.entry
    · exact h.isSome_old (hp.target he)
    · exact h.isSome_label (hq.target he₀)
    · rw [h.tail]
      rfl
  case once =>
    intro k c hc x hx
    rcases h.phi_cases hc hx with ⟨c₀, x₀, hc₀, hx₀, rfl⟩ | ⟨rfl, hret⟩ |
      ⟨k₀, c₀, x₀, hc₀, hx₀, rfl, rfl⟩
    · rw [map_fst_retarget]
      refine List.Nodup.map_on (fun a ha a' ha' he => ?_) (hp.once hc₀ x₀ hx₀)
      have hne : ∀ a ∈ x₀.incoming.map Prod.fst, a ≠ G.tail := fun a ha he => by
        have hsome := isSome_of_edge ((hp.source hc₀ x₀ hx₀ a).mp ha)
        rw [he, h.tail_new] at hsome
        cases hsome
      split at he <;> split at he
      · next h₁ h₂ => exact h₁.trans h₂.symm
      · exact absurd he.symm (hne a' ha')
      · exact absurd he (hne a ha)
      · exact he
    · rw [hret]
      exact h.returns_once
    · rw [map_fst_phi]
      refine List.Nodup.map_on (fun a ha a' ha' he => ?_) (hq.once hc₀ x₀ hx₀)
      exact h.label_inj (isSome_of_edge ((hq.source hc₀ x₀ hx₀ a).mp ha))
        (isSome_of_edge ((hq.source hc₀ x₀ hx₀ a').mp ha')) he
  case source =>
    intro k c hc x hx a
    rcases h.phi_cases hc hx with ⟨c₀, x₀, hc₀, hx₀, rfl⟩ | ⟨rfl, hret⟩ |
      ⟨k₀, c₀, x₀, hc₀, hx₀, rfl, rfl⟩
    · rw [map_fst_retarget, h.edge_old_iff hq hc₀ (ne_dead_of_phi hx₀), List.mem_map]
      constructor
      · rintro ⟨a', ha', rfl⟩
        have he := (hp.source hc₀ x₀ hx₀ a').mp ha'
        split
        · next heq => exact .inr ⟨rfl, heq ▸ he⟩
        · next hne => exact .inl ⟨hne, he⟩
      · rintro (⟨hne, he⟩ | ⟨rfl, he⟩)
        · exact ⟨a, (hp.source hc₀ x₀ hx₀ a).mpr he, if_neg hne⟩
        · exact ⟨G.block, (hp.source hc₀ x₀ hx₀ _).mpr he, if_pos rfl⟩
    · rw [hret, h.edge_tail_iff hp hq]
    · have hne : k₀ ≠ q.entry := by
        rintro rfl
        rw [hnil c₀ hc₀] at hx₀
        cases hx₀
      rw [map_fst_phi, h.edge_label_iff hp hq hc₀ (ne_dead_of_phi hx₀) hne, List.mem_map]
      exact exists_congr fun a₀ => and_congr_left fun _ => hq.source hc₀ x₀ hx₀ a₀

/-- A way through the caller to the block `k` lies within `l`. Where it leads on from the block of the
call, what follows the call is within `l` as well. -/
def Follows (G : Graft) (p : Proc) (k : BlockId) (l : List BlockId) : Prop :=
  ∃ l₀, p.Walk k (k :: l₀) ∧ l₀ ⊆ l ∧ (G.block ∈ l₀ → G.tail ∈ l)

/-- A way to the block of the call lies within `l`, and a way through the callee to the copy of the
block `k`. -/
structure Enters (G : Graft) (p q : Proc) (k : BlockId) (l : List BlockId) : Prop where
  block : G.block ∈ l
  follows : G.Follows p G.block l
  through : ∃ l₁, q.Walk k l₁ ∧ ∀ a ∈ l₁, G.names.label a ∈ l

theorem Follows.cons (h : G.Follows p k l) (a : BlockId) : G.Follows p k (a :: l) := by
  obtain ⟨l₀, w, hs, ht⟩ := h
  exact ⟨l₀, w, fun b hb => mem_cons_of_mem a (hs hb), fun hb => mem_cons_of_mem a (ht hb)⟩

theorem Enters.cons (h : G.Enters p q k l) (a : BlockId) : G.Enters p q k (a :: l) := by
  obtain ⟨l₁, w, hs⟩ := h.through
  exact ⟨mem_cons_of_mem a h.block, h.follows.cons a, l₁, w,
    fun b hb => mem_cons_of_mem a (hs b hb)⟩

theorem Follows.step (h : G.Follows p a l) (he : p.Edge a b) (hb : (p.code b).isSome) (ha : a ∈ l)
    (ht : a = G.block → G.tail ∈ l) : G.Follows p b (b :: l) := by
  obtain ⟨l₀, w, hs, hblock⟩ := h
  refine ⟨a :: l₀, w.step he hb, fun x hx => ?_, fun hx => ?_⟩
  · rcases mem_cons.mp hx with rfl | hx
    · exact mem_cons_of_mem b ha
    · exact mem_cons_of_mem b (hs hx)
  · refine mem_cons_of_mem b ?_
    rcases mem_cons.mp hx with hx | hx
    · exact ht hx.symm
    · exact hblock hx

/-- What lies on a way through the result. -/
structure Passes (G : Graft) (p q : Proc) (k : BlockId) (l : List BlockId) : Prop where
  old : ∀ {c}, p.code k = some c → c ≠ .dead → G.Follows p k l
  tail : k = G.tail → ∃ k₀ c v, q.code k₀ = some c ∧ c.exit = .ret v ∧ G.Enters p q k₀ l
  copy : ∀ {k₀ c}, q.code k₀ = some c → c ≠ .dead → k = G.names.label k₀ → G.Enters p q k₀ l

theorem Joins.passes (h : G.Joins p q p') (hp : p.Connected) (hq : q.Connected)
    (w : p'.Walk k l) : G.Passes p q k l := by
  induction w with
  | start _ =>
    rw [h.entry]
    constructor
    case old => exact fun _ _ => ⟨[], .start hp.entry, nil_subset _, fun hb => nomatch hb⟩
    case tail =>
      intro he
      have hsome := hp.entry
      rw [he, h.tail_new] at hsome
      cases hsome
    case copy =>
      intro k₀ c hc _ he
      exact absurd he.symm (h.label_ne_entry (by rw [hc]; rfl))
  | @step a b l w he hb ih =>
    have ha := w.mem
    rcases h.edge_cases he with ⟨hne, c, hc, hs⟩ | ⟨rfl, rfl⟩ | ⟨rfl, he₀⟩ |
      ⟨a₀, b₀, he₀, rfl, rfl⟩ | ⟨a₀, c, v, hc, hv, rfl, rfl⟩
    · have he₀ : p.Edge a b := ⟨c, hc, hs⟩
      constructor
      case old =>
        intro c' hc' hd
        exact (ih.old hc (ne_dead_of_successor hs)).step he₀ (by rw [hc']; rfl) ha
          fun hb => absurd hb hne
      case tail => exact fun he => absurd (he ▸ he₀) (h.not_edge_tail hp)
      case copy => exact fun hc' hd he => absurd (he ▸ he₀) (h.not_edge_label hp hc' hd)
    · have hfollows := ih.old h.call h.block_ne_dead
      constructor
      case old => exact fun hc hd => absurd rfl (h.label_ne hc hd hq.entry)
      case tail => exact fun he => absurd he (h.label_ne_tail hq.entry)
      case copy =>
        intro k₀ c hc _ hk
        cases h.label_inj hq.entry (by rw [hc]; rfl) hk
        exact ⟨mem_cons_of_mem _ ha, hfollows.cons _, [q.entry], .start hq.entry, by simp⟩
    · obtain ⟨_, _, _, _, _, hin⟩ := ih.tail rfl
      constructor
      case old =>
        intro c hc _
        exact hin.follows.step he₀ (by rw [hc]; rfl) hin.block fun _ => ha
      case tail => exact fun he => absurd (he ▸ he₀) (h.not_edge_tail hp)
      case copy => exact fun hc hd he => absurd (he ▸ he₀) (h.not_edge_label hp hc hd)
    · obtain ⟨ca, hca, hsa⟩ := he₀
      have hin := ih.copy hca (ne_dead_of_successor hsa) rfl
      have hb₀ := hq.target ⟨ca, hca, hsa⟩
      constructor
      case old => exact fun hc hd => absurd rfl (h.label_ne hc hd hb₀)
      case tail => exact fun he => absurd he (h.label_ne_tail hb₀)
      case copy =>
        intro k₀ c hc _ hk
        cases h.label_inj hb₀ (by rw [hc]; rfl) hk
        obtain ⟨l₁, w₁, hs₁⟩ := (hin.cons (G.names.label b₀)).through
        refine ⟨mem_cons_of_mem _ hin.block, hin.follows.cons _, b₀ :: l₁,
          w₁.step ⟨ca, hca, hsa⟩ hb₀, fun x hx => ?_⟩
        rcases mem_cons.mp hx with rfl | hx
        · exact mem_cons_self
        · exact hs₁ x hx
    · have hd : c ≠ .dead := by
        rintro rfl
        cases hv
      have hin := ih.copy hc hd rfl
      constructor
      case old => exact fun hc' _ => nomatch h.tail_new.symm.trans hc'
      case tail => exact fun _ => ⟨a₀, c, v, hc, hv, hin.cons _⟩
      case copy =>
        intro k₀ c' hc' _ hk
        exact absurd hk.symm (h.label_ne_tail (by rw [hc']; rfl))

theorem dest?_instruction (n : Mapping) (i : Instruction) :
    (n.instruction i).dest? = i.dest?.map n.reg := by
  cases i <;> rfl

theorem defs_retarget (c : Code) (x y : BlockId) : (c.retarget x y).defs = c.defs := by
  simp [Code.defs, Code.retarget, Phi.retarget, Function.comp_def]

theorem defs_subset_hoist (c : Code) (ms : List Instruction) : c.defs ⊆ (c.hoist ms).defs := by
  intro r hr
  rcases mem_append.mp hr with hr | hr
  · exact mem_append_left _ hr
  · refine mem_append_right _ ?_
    rw [← takeWhile_append_dropWhile (p := Instruction.isAlloca) (l := c.body),
      filterMap_append, mem_append] at hr
    simp only [Code.hoist, filterMap_append, mem_append]
    exact hr.imp_left .inl

theorem defs_subset (c : Code) : c.defs ⊆ (G.hoist p q k c).defs := by
  unfold hoist
  split
  · exact defs_subset_hoist c _
  · exact fun r hr => hr

theorem mem_binding (h : G.dest = some r) :
    r ∈ G.binding.1.map Phi.dest ++ G.binding.2.filterMap Instruction.dest? := by
  unfold binding Inline.binding
  rw [h]
  dsimp only
  split <;> exact mem_cons_self

theorem mem_before_or_after {after : List Instruction}
    (h : r ∈ G.phis.map Phi.dest ++
      (G.before ++ .call G.dest G.callee G.args :: after).filterMap Instruction.dest?) :
    r ∈ G.phis.map Phi.dest ++ G.before.filterMap Instruction.dest? ∨
      r ∈ G.binding.1.map Phi.dest ++ (G.binding.2 ++ after).filterMap Instruction.dest? := by
  simp only [filterMap_append, filterMap_cons, ← append_assoc] at h ⊢
  rcases mem_append.mp h with h | h
  · exact .inl h
  · refine .inr ?_
    cases hd : G.dest with
    | none =>
      rw [hd] at h
      exact mem_append_right _ h
    | some d =>
      rw [hd] at h
      rcases mem_cons.mp h with rfl | h
      · exact mem_append_left _ (mem_binding hd)
      · exact mem_append_right _ h

theorem Joins.defs_head (h : G.Joins p q p')
    (hr : r ∈ G.phis.map Phi.dest ++ G.before.filterMap Instruction.dest?) :
    ∃ c, p'.code G.block = some c ∧ r ∈ c.defs := by
  refine ⟨_, h.head, defs_subset _ ?_⟩
  simpa [Code.defs, Phi.retarget, Function.comp_def] using hr

theorem Joins.defs_old (h : G.Joins p q p') (hc : p.code k = some c) (hr : r ∈ c.defs) :
    (∃ c', p'.code k = some c' ∧ r ∈ c'.defs) ∨
      k = G.block ∧ ∃ c', p'.code G.tail = some c' ∧ r ∈ c'.defs := by
  by_cases hk : k = G.block
  · subst hk
    cases h.call.symm.trans hc
    rcases mem_before_or_after hr with hr | hr
    · exact .inl (h.defs_head hr)
    · exact .inr ⟨rfl, _, h.tail, hr⟩
  · exact .inl ⟨_, h.old hk hc, defs_subset _ ((defs_retarget c _ _).symm ▸ hr)⟩

theorem Joins.defs_hoisted (h : G.Joins p q p') (hp : p.Connected) (hc : q.code q.entry = some c)
    (hi : i ∈ c.body) (ha : i.isAlloca = true) (hr : i.dest? = some r) :
    ∃ c', p'.code p.entry = some c' ∧ G.names.reg r ∈ c'.defs := by
  have hmem : G.names.instruction i ∈ q.allocas.map G.names.instruction := by
    refine List.mem_map_of_mem ?_
    rw [Proc.allocas, hc]
    exact mem_filter.mpr ⟨hi, ha⟩
  obtain ⟨c₀, hc₀⟩ : ∃ c₀, p'.code p.entry = some (G.hoist p q p.entry c₀) := by
    obtain ⟨c₁, hc₁⟩ := isSome_iff_exists.mp hp.entry
    by_cases hk : p.entry = G.block
    · exact ⟨_, hk ▸ h.head⟩
    · exact ⟨_, h.old hk hc₁⟩
  refine ⟨_, hc₀, mem_append_right _ (mem_filterMap.mpr ⟨G.names.instruction i, ?_, ?_⟩)⟩
  · rw [hoist, if_pos rfl]
    exact mem_append_left _ (mem_append_right _ hmem)
  · rw [dest?_instruction, hr]
    rfl

/-- What a block of the callee defines is defined in its copy, or with the allocations of the
caller. -/
theorem Joins.defs_copy (h : G.Joins p q p') (hp : p.Connected) (hc : q.code k = some c)
    (hr : r ∈ c.defs) :
    (∃ c', p'.code (G.names.label k) = some c' ∧ G.names.reg r ∈ c'.defs) ∨
      ∃ c', p'.code p.entry = some c' ∧ G.names.reg r ∈ c'.defs := by
  rcases mem_append.mp hr with hr | hr
  · obtain ⟨x, hx, rfl⟩ := List.mem_map.mp hr
    obtain ⟨c', hc', hphis, -⟩ := h.exists_copy hc
    refine .inl ⟨c', hc', mem_append_left _ ?_⟩
    rw [hphis, List.map_map]
    exact List.mem_map.mpr ⟨x, hx, rfl⟩
  · obtain ⟨i, hi, hir⟩ := mem_filterMap.mp hr
    by_cases hmove : k = q.entry ∧ i.isAlloca = true
    · obtain ⟨rfl, ha⟩ := hmove
      exact .inr (h.defs_hoisted hp hc hi ha hir)
    · refine .inl ⟨_, h.copy hc, mem_append_right _
        (mem_filterMap.mpr ⟨G.names.instruction i, List.mem_map_of_mem ?_, ?_⟩)⟩
      · split
        · next he =>
          exact mem_filter.mpr ⟨hi, by simpa using fun ha => hmove ⟨he, ha⟩⟩
        · exact hi
      · rw [dest?_instruction, hir]
        rfl

variable {before before' : List Reg}

theorem Joins.visible_old (h : G.Joins p q p') (hp : p.Connected) (hq : q.Connected)
    (hc : p.code k = some c) (hd : c ≠ .dead) (hs : before ⊆ before') (hv : p.Visible k before r) :
    p'.Visible k before' r := by
  cases hv with
  | param hr => exact .param (h.params ▸ hr)
  | here hr => exact .here (hs hr)
  | @above k' c' hne hc' hr hdom =>
    have hpass : ∀ l, p'.Walk k l → ∃ l₀, k' ∈ l₀ ∧ l₀ ⊆ l ∧ (G.block ∈ l₀ → G.tail ∈ l) := by
      intro l w
      obtain ⟨l₀, w₀, hs₀, ht⟩ := (h.passes hp hq w).old hc hd
      exact ⟨l₀, (mem_cons.mp (hdom _ w₀)).resolve_left hne, hs₀, ht⟩
    rcases h.defs_old hc' hr with ⟨c'', hc'', hr''⟩ | ⟨rfl, c'', hc'', hr''⟩
    · refine .above hne hc'' hr'' fun l w => ?_
      obtain ⟨l₀, hk', hs₀, -⟩ := hpass l w
      exact hs₀ hk'
    · refine .above (fun he => ?_) hc'' hr'' fun l w => ?_
      · cases (he ▸ h.tail_new).symm.trans hc
      · obtain ⟨l₀, hk', -, ht⟩ := hpass l w
        exact ht hk'

/-- What was visible at the call is visible wherever control comes only by way of the call. -/
theorem Joins.visible_inside (h : G.Joins p q p') (hk : p.code k = none)
    (hw : ∀ l, p'.Walk k l → G.block ∈ l ∧ G.Follows p G.block l)
    (hv : p.Visible G.block (G.phis.map Phi.dest ++ G.before.filterMap Instruction.dest?) r) :
    p'.Visible k before' r := by
  cases hv with
  | param hr => exact .param (h.params ▸ hr)
  | here hr =>
    obtain ⟨c', hc', hr'⟩ := h.defs_head hr
    refine .above (fun he => ?_) hc' hr' fun l w => (hw l w).1
    cases (he ▸ hk).symm.trans h.call
  | @above k' c' hne hc' hr hdom =>
    obtain ⟨c'', hc'', hr''⟩ := (h.defs_old hc' hr).resolve_right fun he => hne he.1
    refine .above (fun he => ?_) hc'' hr'' fun l w => ?_
    · cases (he ▸ hk).symm.trans hc'
    · obtain ⟨-, l₀, w₀, hs₀, -⟩ := hw l w
      exact hs₀ ((mem_cons.mp (hdom _ w₀)).resolve_left hne)

theorem Joins.walk_tail (h : G.Joins p q p') (hp : p.Connected) (hq : q.Connected)
    (w : p'.Walk G.tail l) : G.block ∈ l ∧ G.Follows p G.block l := by
  obtain ⟨_, _, _, _, _, hin⟩ := (h.passes hp hq w).tail rfl
  exact ⟨hin.block, hin.follows⟩

theorem Joins.visible_tail (h : G.Joins p q p') (hp : p.Connected) (hq : q.Connected)
    (hs : ∀ r ∈ before, r ∈ G.phis.map Phi.dest ++ G.before.filterMap Instruction.dest? ∨ r ∈ before')
    (hv : p.Visible G.block before r) : p'.Visible G.tail before' r := by
  have hin : p.Visible G.block (G.phis.map Phi.dest ++ G.before.filterMap Instruction.dest?) r →
      p'.Visible G.tail before' r :=
    h.visible_inside h.tail_new fun l w => h.walk_tail hp hq w
  cases hv with
  | param hr => exact hin (.param hr)
  | here hr => exact (hs r hr).elim (fun hr => hin (.here hr)) .here
  | above hne hc hr hdom => exact hin (.above hne hc hr hdom)

/-- What was visible in a block of the callee is visible, under its new name, wherever control comes
only by way of its copy. -/
theorem Joins.visible_copy (h : G.Joins p q p') (hp : p.Connected) (hps : p.Scoped)
    (hk : p.code k = none) (hw : ∀ l, p'.Walk k l → G.Enters p q k₀ l) (hc₀ : q.code k₀ = some c)
    (hlabel : ∀ k₁, (q.code k₁).isSome → k₁ ≠ k₀ → G.names.label k₁ ≠ k)
    (hb : ∀ r ∈ before, r ∈ c.defs ∧ p'.Visible k before' (G.names.reg r))
    (ho : G.names.operand (.reg r) = .reg o) (hv : q.Visible k₀ before r) :
    p'.Visible k before' o := by
  have hname : ∀ {k₁ c₁}, q.code k₁ = some c₁ → r ∈ c₁.defs → G.names.reg r = o := by
    intro k₁ c₁ hc₁ hr
    obtain ⟨hreg, -⟩ := h.reg_new ⟨k₁, c₁, hc₁, hr⟩
    exact Operand.reg.inj (hreg.symm.trans ho)
  cases hv with
  | param hr =>
    obtain ⟨a, ha, hra⟩ := forall₂_exists_left h.args.flip hr
    have huse : o ∈ (Instruction.call G.dest G.callee G.args).uses := by
      refine mem_filterMap.mpr ⟨.reg o, ?_, rfl⟩
      rw [← ho, hra]
      exact ha
    exact h.visible_inside hk (fun l w => ⟨(hw l w).block, (hw l w).follows⟩)
      (hps.body h.call rfl o huse)
  | here hr =>
    obtain ⟨hdef, hvis⟩ := hb r hr
    exact hname hc₀ hdef ▸ hvis
  | @above k₁ c₁ hne hc₁ hr hdom =>
    rw [← hname hc₁ hr]
    rcases h.defs_copy hp hc₁ hr with ⟨c', hc', hr'⟩ | ⟨c', hc', hr'⟩
    · refine .above (hlabel k₁ (by rw [hc₁]; rfl) hne) hc' hr' fun l w => ?_
      obtain ⟨l₁, w₁, hs₁⟩ := (hw l w).through
      exact hs₁ k₁ (hdom l₁ w₁)
    · refine .above (fun he => ?_) hc' hr' fun l w => h.entry ▸ w.entry_mem
      have hsome := hp.entry
      rw [he, hk] at hsome
      cases hsome

theorem exists_of_mem_map (os : List Operand) (h : o ∈ (os.map n.operand).filterMap Operand.reg?) :
    ∃ r ∈ os.filterMap Operand.reg?, n.operand (.reg r) = .reg o := by
  obtain ⟨a, ha, hao⟩ := mem_filterMap.mp h
  obtain ⟨a₀, ha₀, rfl⟩ := List.mem_map.mp ha
  cases a₀ with
  | const c => cases hao
  | reg r =>
    refine ⟨r, mem_filterMap.mpr ⟨_, ha₀, rfl⟩, ?_⟩
    cases hn : n.operand (.reg r) with
    | const c =>
      rw [hn] at hao
      cases hao
    | reg o' =>
      rw [hn] at hao
      cases hao
      rfl

theorem exists_of_mem_uses (h : o ∈ (n.instruction i).uses) :
    ∃ r ∈ i.uses, n.operand (.reg r) = .reg o := by
  have hmap : (n.instruction i).operands = i.operands.map n.operand := by
    cases i <;> rfl
  rw [Instruction.uses, hmap] at h
  exact exists_of_mem_map _ h

theorem exists_of_mem_exit (h : o ∈ (copyTerminator n k t).uses) :
    ∃ r ∈ t.uses, n.operand (.reg r) = .reg o := by
  refine exists_of_mem_map t.operands ?_
  cases t with
  | ret v => cases h
  | branch s => cases h
  | unreachable => cases h
  | condBranch a s s' => exact h
  | switch a cs s => exact h

theorem exists_of_returned {ty : Ty} (h : returned? n ty t = some (.reg o)) :
    ∃ r ∈ t.uses, n.operand (.reg r) = .reg o := by
  cases t with
  | ret v =>
    cases v with
    | none => cases h
    | some v =>
      refine exists_of_mem_map [v] (mem_filterMap.mpr ⟨.reg o, ?_, rfl⟩)
      exact mem_singleton.mpr (Option.some.inj h).symm
  | _ => cases h

/-- What a block of the callee defines is visible in its copy, in its place or from above. -/
theorem Joins.visible_here (h : G.Joins p q p') (hp : p.Connected) (hc : q.code k₀ = some c)
    (hd : c ≠ .dead) (hi : i ∈ c.body) (hr : i.dest? = some r)
    (hin : (k₀ = q.entry → i.isAlloca = false) → G.names.reg r ∈ before') :
    p'.Visible (G.names.label k₀) before' (G.names.reg r) := by
  by_cases hmove : k₀ = q.entry ∧ i.isAlloca = true
  · obtain ⟨rfl, ha⟩ := hmove
    obtain ⟨c', hc', hr'⟩ := h.defs_hoisted hp hc hi ha hr
    refine .above (fun he => ?_) hc' hr' fun l w => h.entry ▸ w.entry_mem
    have hsome := hp.entry
    rw [he, h.old_ne hc hd] at hsome
    cases hsome
  · exact .here (hin fun he => by simpa using fun ha => hmove ⟨he, ha⟩)

theorem Joins.visible_label (h : G.Joins p q p') (hp : p.Connected) (hps : p.Scoped)
    (hq : q.Connected) (hc : q.code k₀ = some c) (hd : c ≠ .dead)
    (hb : ∀ r ∈ before, r ∈ c.defs ∧ p'.Visible (G.names.label k₀) before' (G.names.reg r))
    (ho : G.names.operand (.reg r) = .reg o) (hv : q.Visible k₀ before r) :
    p'.Visible (G.names.label k₀) before' o :=
  h.visible_copy hp hps (h.old_ne hc hd) (fun _ w => (h.passes hp hq w).copy hc hd rfl) hc
    (fun _ hk₁ hne he => hne (h.label_inj hk₁ (by rw [hc]; rfl) he)) hb ho hv

/-- At the end of a copy all is visible that was visible at the end of the block. -/
theorem Joins.visible_end (h : G.Joins p q p') (hp : p.Connected) (hps : p.Scoped)
    (hq : q.Connected) (hc : q.code k₀ = some c) (hd : c ≠ .dead)
    (hc' : p'.code (G.names.label k₀) = some c') (ho : G.names.operand (.reg r) = .reg o)
    (hv : q.Visible k₀ c.defs r) : p'.Visible (G.names.label k₀) c'.defs o := by
  refine h.visible_label hp hps hq hc hd (fun r hr => ⟨hr, ?_⟩) ho hv
  rcases h.defs_copy hp hc hr with ⟨c'', hc'', hr'⟩ | ⟨c'', hc'', hr'⟩
  · cases hc'.symm.trans hc''
    exact .here hr'
  · refine .above (fun he => ?_) hc'' hr' fun l w => h.entry ▸ w.entry_mem
    have hsome := hp.entry
    rw [he, h.old_ne hc hd] at hsome
    cases hsome

theorem exists_of_filter_eq {α : Type} {f : α → Bool} {l pre post : List α} {x : α}
    (h : l.filter f = pre ++ x :: post) :
    ∃ pre₀ post₀, l = pre₀ ++ x :: post₀ ∧ pre₀.filter f = pre := by
  induction l generalizing pre with
  | nil => simp at h
  | cons y l ih =>
    by_cases hy : f y = true
    · rw [filter_cons_of_pos hy] at h
      cases pre with
      | nil =>
        cases h
        exact ⟨[], l, rfl, rfl⟩
      | cons z pre =>
        obtain ⟨hyz, hl⟩ := List.cons.inj h
        obtain ⟨pre₀, post₀, rfl, rfl⟩ := ih hl
        exact ⟨y :: pre₀, post₀, rfl, hyz ▸ filter_cons_of_pos hy⟩
    · rw [filter_cons_of_neg hy] at h
      obtain ⟨pre₀, post₀, rfl, rfl⟩ := ih h
      exact ⟨y :: pre₀, post₀, rfl, filter_cons_of_neg hy⟩

/-- An instruction of a copy and what comes before it, in the copy and in the callee. -/
theorem exists_of_copied
    (h : (n.code a (if k₀ = q.entry then c.withoutAllocas else c)).body = pre ++ i :: post) :
    ∃ pre₀ i₀ post₀, c.body = pre₀ ++ i₀ :: post₀ ∧ i = n.instruction i₀ ∧
      ∀ j ∈ pre₀, (k₀ = q.entry → j.isAlloca = false) → n.instruction j ∈ pre := by
  obtain ⟨pre₁, rest, hbody, rfl, hrest⟩ := map_eq_append_iff.mp h
  obtain ⟨i₀, post₁, rfl, rfl, -⟩ := map_eq_cons_iff.mp hrest
  split at hbody
  · next he =>
    obtain ⟨pre₀, post₀, hc, rfl⟩ := exists_of_filter_eq hbody
    refine ⟨pre₀, i₀, post₀, hc, rfl, fun j hj hja => List.mem_map_of_mem ?_⟩
    exact mem_filter.mpr ⟨hj, by simp [hja he]⟩
  · exact ⟨pre₁, i₀, post₁, hbody, rfl, fun j hj _ => List.mem_map_of_mem hj⟩

theorem Joins.scoped_copy (h : G.Joins p q p') (hp : p.Connected) (hps : p.Scoped)
    (hq : q.Connected) (hqs : q.Scoped) (hc : q.code k₀ = some c)
    (hc' : p'.code (G.names.label k₀) = some c') (hbody : c'.body = pre ++ i :: post)
    (ho : o ∈ i.uses) :
    p'.Visible (G.names.label k₀) (c'.phis.map Phi.dest ++ pre.filterMap Instruction.dest?) o := by
  have hcopy := h.copy hc
  cases hc'.symm.trans hcopy
  obtain ⟨pre₀, i₀, post₀, hbody₀, rfl, hpre⟩ := exists_of_copied hbody
  have hd : c ≠ .dead := by
    rintro rfl
    simp [Code.dead] at hbody₀
  obtain ⟨r, hr, hro⟩ := exists_of_mem_uses ho
  refine h.visible_label hp hps hq hc hd (fun x hx => ?_) hro (hqs.body hc hbody₀ r hr)
  rcases mem_append.mp hx with hx | hx
  · refine ⟨mem_append_left _ hx, .here (mem_append_left _ ?_)⟩
    obtain ⟨y, hy, rfl⟩ := List.mem_map.mp hx
    have hphis : (if k₀ = q.entry then c.withoutAllocas else c).phis = c.phis := by
      split <;> rfl
    dsimp only [Mapping.code]
    rw [hphis, List.map_map]
    exact List.mem_map.mpr ⟨y, hy, rfl⟩
  · obtain ⟨j, hj, hjx⟩ := mem_filterMap.mp hx
    have hmem : j ∈ c.body := by
      rw [hbody₀]
      exact mem_append_left _ hj
    refine ⟨mem_append_right _ (mem_filterMap.mpr ⟨j, hmem, hjx⟩),
      h.visible_here hp hc hd hmem hjx fun hja => mem_append_right _ ?_⟩
    refine mem_filterMap.mpr ⟨_, hpre j hj hja, ?_⟩
    rw [dest?_instruction, hjx]
    rfl

theorem mem_binding_instructions (hi : i ∈ G.binding.2) :
    (∃ d, i = .const d .undefined) ∨ ∃ d k v, i = .copy d v ∧ G.returns = [(k, v)] := by
  unfold binding Inline.binding at hi
  split at hi
  · cases hi
  · next d _ =>
    split at hi
    · exact .inl ⟨d, mem_singleton.mp hi⟩
    · next k v hr => exact .inr ⟨d, k, v, mem_singleton.mp hi, hr⟩
    · cases hi

theorem Joins.visible_returned (h : G.Joins p q p') (hp : p.Connected) (hps : p.Scoped)
    (hq : q.Connected) (hqs : q.Scoped) (hret : G.returns = [(k, .reg o)]) :
    p'.Visible G.tail before' o := by
  obtain ⟨k₀, c, hc, rfl, hv⟩ := h.returns.mp (hret ▸ mem_singleton.mpr rfl)
  obtain ⟨r, hr, hro⟩ := exists_of_returned hv
  have henter : ∀ l, p'.Walk G.tail l → G.Enters p q k₀ l := by
    intro l w
    obtain ⟨k₁, c₁, v₁, hc₁, hv₁, hin⟩ := (h.passes hp hq w).tail rfl
    obtain ⟨o₁, ho₁⟩ : ∃ o₁, returned? G.names G.result c₁.exit = some o₁ := by
      rw [hv₁]
      cases v₁ <;> exact ⟨_, rfl⟩
    have hmem := h.returns.mpr ⟨k₁, c₁, hc₁, rfl, ho₁⟩
    rw [hret, mem_singleton] at hmem
    cases h.label_inj (by rw [hc₁]; rfl) (by rw [hc]; rfl) (Prod.mk.inj hmem).1
    exact hin
  refine h.visible_copy hp hps h.tail_new henter hc (fun k₁ hk₁ _ => h.label_ne_tail hk₁)
    (fun x hx => ⟨hx, ?_⟩) hro (hqs.exit hc r hr)
  rcases h.defs_copy hp hc hx with ⟨c', hc', hr'⟩ | ⟨c', hc', hr'⟩
  · refine .above (h.label_ne_tail (by rw [hc]; rfl)) hc' hr' fun l w => ?_
    obtain ⟨l₁, w₁, hs₁⟩ := (henter l w).through
    exact hs₁ k₀ w₁.mem
  · refine .above (fun he => ?_) hc' hr' fun l w => h.entry ▸ w.entry_mem
    have hsome := hp.entry
    rw [he, h.tail_new] at hsome
    cases hsome

theorem split_of_append_eq {α : Type} {u v pre post : List α} {x : α}
    (h : u ++ v = pre ++ x :: post) :
    (∃ post₁, u = pre ++ x :: post₁) ∨ ∃ pre₁, pre = u ++ pre₁ ∧ v = pre₁ ++ x :: post := by
  rcases append_eq_append_iff.mp h with h | ⟨rest, hu, hrest⟩
  · exact .inr h
  · cases rest with
    | nil => exact .inr ⟨[], by simpa using hu.symm, by simpa using hrest.symm⟩
    | cons y rest =>
      cases hrest
      exact .inl ⟨rest, hu⟩

theorem Joins.scoped_tail (h : G.Joins p q p') (hp : p.Connected) (hps : p.Scoped)
    (hq : q.Connected) (hqs : q.Scoped) (hbody : G.binding.2 ++ G.after = pre ++ i :: post)
    (ho : o ∈ i.uses) :
    p'.Visible G.tail (G.binding.1.map Phi.dest ++ pre.filterMap Instruction.dest?) o := by
  rcases split_of_append_eq hbody with ⟨post₁, hi⟩ | ⟨pre₁, rfl, hafter⟩
  · have hmem : i ∈ G.binding.2 := by simp [hi]
    rcases mem_binding_instructions hmem with ⟨d, rfl⟩ | ⟨d, k, v, rfl, hret⟩
    · cases ho
    · obtain ⟨a, ha, hao⟩ := mem_filterMap.mp ho
      cases mem_singleton.mp ha
      cases v with
      | const c => cases hao
      | reg o' =>
        cases hao
        exact h.visible_returned hp hps hq hqs hret
  · have hsplit : G.before ++ .call G.dest G.callee G.args :: G.after =
        (G.before ++ .call G.dest G.callee G.args :: pre₁) ++ i :: post := by
      rw [hafter, append_assoc, cons_append]
    exact h.visible_tail hp hq (fun r hr => mem_before_or_after hr) (hps.body h.call hsplit o ho)

theorem Joins.visible_tail_end (h : G.Joins p q p') (hp : p.Connected) (hq : q.Connected)
    (hc : p.code G.block = some c) (hv : p.Visible G.block c.defs r)
    (hc' : p'.code G.tail = some c') : p'.Visible G.tail c'.defs r := by
  cases h.call.symm.trans hc
  cases h.tail.symm.trans hc'
  exact h.visible_tail hp hq (fun _ hx => mem_before_or_after hx) hv

theorem exists_of_hoist {ms : List Instruction} (hms : ∀ j ∈ ms, j.uses = []) (hr : r ∈ i.uses)
    (h : (c.hoist ms).body = pre ++ i :: post) :
    ∃ pre₁ post₁, c.body = pre₁ ++ i :: post₁ ∧ pre₁ ⊆ pre := by
  have hbody := takeWhile_append_dropWhile (p := Instruction.isAlloca) (l := c.body)
  rcases split_of_append_eq h with ⟨post₁, hu⟩ | ⟨pre₁, rfl, hv⟩
  · rcases split_of_append_eq hu with ⟨post₂, hu⟩ | ⟨pre₁, -, hv⟩
    · refine ⟨pre, post₂ ++ c.body.dropWhile Instruction.isAlloca, ?_, fun _ h => h⟩
      rw [hu] at hbody
      simpa using hbody.symm
    · rw [hms i (by simp [hv])] at hr
      cases hr
  · refine ⟨c.body.takeWhile Instruction.isAlloca ++ pre₁, post, ?_, fun j hj => ?_⟩
    · rw [hv] at hbody
      simpa using hbody.symm
    · rcases mem_append.mp hj with hj | hj
      · exact mem_append_left _ (mem_append_left _ hj)
      · exact mem_append_right _ hj

theorem isAlloca_of_mem (h : i ∈ q.allocas.map G.names.instruction) : i.isAlloca = true := by
  obtain ⟨j, hj, rfl⟩ := List.mem_map.mp h
  rw [isAlloca_instruction]
  unfold Proc.allocas at hj
  cases hc : q.code q.entry with
  | none =>
    rw [hc] at hj
    cases hj
  | some c =>
    rw [hc] at hj
    exact (mem_filter.mp hj).2

theorem uses_of_isAlloca (h : i.isAlloca = true) : i.uses = [] := by
  cases i with
  | alloca d ty => rfl
  | _ => cases h

theorem exists_of_hoisted (hr : r ∈ i.uses) (h : (G.hoist p q k c).body = pre ++ i :: post) :
    ∃ pre₁ post₁, c.body = pre₁ ++ i :: post₁ ∧ pre₁ ⊆ pre := by
  unfold hoist at h
  split at h
  · exact exists_of_hoist (fun j hj => uses_of_isAlloca (isAlloca_of_mem hj)) hr h
  · exact ⟨pre, post, h, fun _ h => h⟩

theorem Joins.scoped_body (h : G.Joins p q p') (hp : p.Connected) (hps : p.Scoped)
    (hq : q.Connected) (hc : p.code k = some c) (hc' : p'.code k = some c')
    (hbody : c'.body = pre ++ i :: post) (hr : r ∈ i.uses) :
    p'.Visible k (c'.phis.map Phi.dest ++ pre.filterMap Instruction.dest?) r := by
  obtain ⟨pre₁, post₁, hsplit, hpre⟩ : ∃ pre₁ post₁, c.body = pre₁ ++ i :: post₁ ∧ pre₁ ⊆ pre := by
    by_cases hk : k = G.block
    · subst hk
      cases h.call.symm.trans hc
      cases h.head.symm.trans hc'
      obtain ⟨pre₁, post₁, hsplit, hpre⟩ := exists_of_hoisted hr hbody
      refine ⟨pre₁, post₁ ++ .call G.dest G.callee G.args :: G.after, ?_, hpre⟩
      dsimp only at hsplit ⊢
      rw [hsplit, append_assoc, cons_append]
    · cases (h.old hk hc).symm.trans hc'
      exact exists_of_hoisted (c := c.retarget G.block G.tail) hr hbody
  have hphis : c'.phis.map Phi.dest = c.phis.map Phi.dest := by
    obtain ⟨c'', hc'', hphis⟩ := h.exists_old hc
    cases hc'.symm.trans hc''
    simp [hphis, Phi.retarget, Function.comp_def]
  have hd : c ≠ .dead := by
    rintro rfl
    simp [Code.dead] at hsplit
  refine h.visible_old hp hq hc hd (fun x hx => ?_) (hps.body hc hsplit r hr)
  rw [hphis]
  refine (mem_append.mp hx).elim (mem_append_left _) fun hx => mem_append_right _ ?_
  obtain ⟨j, hj, hjx⟩ := mem_filterMap.mp hx
  exact mem_filterMap.mpr ⟨j, hpre hj, hjx⟩

theorem Joins.scoped_exit (h : G.Joins p q p') (hp : p.Connected) (hps : p.Scoped)
    (hq : q.Connected) (hc : p.code k = some c) (hc' : p'.code k = some c') (hr : r ∈ c'.exit.uses) :
    p'.Visible k c'.defs r := by
  by_cases hk : k = G.block
  · subst hk
    cases h.head.symm.trans hc'
    rw [exit_hoist] at hr
    cases hr
  · cases (h.old hk hc).symm.trans hc'
    rw [exit_hoist] at hr
    have hd : c ≠ .dead := by
      rintro rfl
      cases hr
    refine h.visible_old hp hq hc hd ?_ (hps.exit hc r hr)
    rw [← defs_retarget c G.block G.tail]
    exact defs_subset _

/-- Registers are read where they are visible if this was so in the caller and in the callee. -/
theorem Joins.scoped (h : G.Joins p q p') (hp : p.Connected) (hps : p.Scoped) (hq : q.Connected)
    (hqs : q.Scoped) : p'.Scoped := by
  constructor
  case incoming =>
    intro k c hc x hx a o ha c' hc'
    rcases h.phi_cases hc hx with ⟨c₀, x₀, hc₀, hx₀, rfl⟩ | ⟨rfl, hret⟩ |
      ⟨k₀, c₀, x₀, hc₀, hx₀, rfl, rfl⟩
    · obtain ⟨⟨a₀, o₀⟩, ha₀, he⟩ := List.mem_map.mp ha
      obtain ⟨hae, rfl⟩ := Prod.mk.inj he
      obtain ⟨ca, hca, hsa⟩ := (hp.source hc₀ x₀ hx₀ a₀).mp (List.mem_map_of_mem ha₀)
      have hv := hps.incoming hc₀ x₀ hx₀ ha₀ hca
      by_cases hab : a₀ = G.block
      · subst hab
        rw [if_pos rfl] at hae
        subst hae
        exact h.visible_tail_end hp hq hca hv hc'
      · rw [if_neg hab] at hae
        subst hae
        cases (h.old hab hca).symm.trans hc'
        refine h.visible_old hp hq hca (ne_dead_of_successor hsa) ?_ hv
        rw [← defs_retarget ca G.block G.tail]
        exact defs_subset _
    · rw [hret] at ha
      obtain ⟨k₀, c₀, hc₀, rfl, hv⟩ := h.returns.mp ha
      obtain ⟨r, hr, hro⟩ := exists_of_returned hv
      have hd : c₀ ≠ .dead := by
        rintro rfl
        cases hv
      exact h.visible_end hp hps hq hc₀ hd hc' hro (hqs.exit hc₀ r hr)
    · obtain ⟨⟨a₀, o₀⟩, ha₀, he⟩ := List.mem_map.mp ha
      obtain ⟨rfl, hoe⟩ := Prod.mk.inj he
      obtain ⟨ca, hca, hsa⟩ := (hq.source hc₀ x₀ hx₀ a₀).mp (List.mem_map_of_mem ha₀)
      cases o₀ with
      | const c => cases hoe
      | reg r =>
        exact h.visible_end hp hps hq hca (ne_dead_of_successor hsa) hc' hoe
          (hqs.incoming hc₀ x₀ hx₀ ha₀ hca)
  case body =>
    intro k c hc pre i post hbody o ho
    rcases h.origin hc with ⟨c₀, hc₀⟩ | rfl | ⟨k₀, ⟨c₀, hc₀⟩, rfl⟩
    · exact h.scoped_body hp hps hq hc₀ hc hbody ho
    · cases h.tail.symm.trans hc
      exact h.scoped_tail hp hps hq hqs hbody ho
    · exact h.scoped_copy hp hps hq hqs hc₀ hc hbody ho
  case exit =>
    intro k c hc o ho
    rcases h.origin hc with ⟨c₀, hc₀⟩ | rfl | ⟨k₀, ⟨c₀, hc₀⟩, rfl⟩
    · exact h.scoped_exit hp hps hq hc₀ hc ho
    · cases h.tail.symm.trans hc
      exact h.visible_tail_end hp hq h.call (hps.exit h.call o ho) h.tail
    · obtain ⟨c', hc', -, hexit⟩ := h.exists_copy hc₀
      cases hc.symm.trans hc'
      rw [hexit] at ho
      obtain ⟨r, hr, hro⟩ := exists_of_mem_exit ho
      have hd : c₀ ≠ .dead := by
        rintro rfl
        cases hr
      exact h.visible_end hp hps hq hc₀ hd hc hro (hqs.exit hc₀ r hr)

end Graft

end SiteFusion
