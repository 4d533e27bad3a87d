import SiteFusion.Proofs.DominatorTrees
import SiteFusion.Proofs.ExhaustedCounters
import SiteFusion.Proofs.LawfulCalls
import SiteFusion.Proofs.MergedSites

namespace SiteFusion

open List Option

namespace Function

variable {f g h : Function}

theorem switches_eq (f : Function) :
    f.graph.blockList.filterMap Site.dispatch? = f.exits.filterMap fun e => e.2.2 := by
  rw [exits, Graph.blockList, Table.values, filterMap_map, filterMap_map]
  rfl

theorem keyed_iff : f.graph.Keyed ↔ ∀ e ∈ f.exits, e.2.1 = e.1 := by
  constructor
  · intro hk e he
    obtain ⟨x, hx, rfl⟩ := mem_map.mp he
    exact hk x.1 x.2 (Table.get?_eq_some_iff.mpr hx)
  · intro hk k b hb
    exact hk (k, b.exit) (mem_map.mpr ⟨(k, b), Table.get?_eq_some_iff.mp hb, rfl⟩)

/-- Some blocks are gone, and some no longer end in the switch of a site. -/
structure Tapers (f g : Function) : Prop where
  keyed : f.graph.Keyed → g.graph.Keyed
  switches : g.graph.blockList.filterMap Site.dispatch? <+
    f.graph.blockList.filterMap Site.dispatch?

theorem Tapers.trans (hg : f.Tapers g) (hh : g.Tapers h) : f.Tapers h :=
  ⟨fun hk => hh.keyed (hg.keyed hk), hh.switches.trans hg.switches⟩

theorem tapers_of_exits (hx : g.exits <+ f.exits) : f.Tapers g := by
  refine ⟨fun hk => ?_, ?_⟩
  · rw [keyed_iff] at hk ⊢
    exact fun e he => hk e (hx.subset he)
  · rw [switches_eq, switches_eq]
    exact hx.filterMap _

theorem exits_removeBlock (f : Function) (d : BlockId) : (f.removeBlock d).exits <+ f.exits := by
  unfold removeBlock Graph.removeBlock
  cases hb : f.graph.block? d with
  | none => exact .refl _
  | some b =>
    have hmap := exits_mapBlocks
      (f := { f with graph := { f.graph with blocks := f.graph.blocks.erase d } })
      (c := fun k s => if b.successors.contains k then s.mapPhis fun p => p.removeIncoming d else s)
      fun k s _ => by split <;> rfl
    exact hmap ▸ filter_sublist.map _

theorem exits_removeBlocks (l : List BlockId) (f : Function) :
    (l.foldl removeBlock f).exits <+ f.exits := by
  induction l generalizing f with
  | nil => exact .refl _
  | cons d l ih => exact (ih (f.removeBlock d)).trans (exits_removeBlock f d)

theorem tapers_cutOff {k : BlockId} {c : Block → Block} (hid : ∀ b, (c b).id = b.id)
    (hc : ∀ b, Site.dispatch? (c b) = none) :
    f.Tapers (f.modifyBlock k c) ∧ ∀ i x, (k, i, some x) ∈ f.exits →
      Rounds.dispatchCount (f.modifyBlock k c) < Rounds.dispatchCount f := by
  have hexits : (f.modifyBlock k c).exits =
      f.exits.map fun e => if e.1 = k then (e.1, e.2.1, none) else e := by
    refine List.map_map.trans (Eq.trans (map_congr_left fun e _ => ?_) List.map_map.symm)
    by_cases he : e.1 = k
    · simp [he, Block.exit, hid, hc]
    · simp [he]
  have hswitches : ∀ l : List (BlockId × BlockId × Option (String × UInt64)),
      (l.map fun e => if e.1 = k then (e.1, e.2.1, none) else e).filterMap (fun e => e.2.2) =
        (l.filter fun e => e.1 ≠ k).filterMap fun e => e.2.2 := by
    intro l
    induction l with
    | nil => rfl
    | cons e l ih =>
      by_cases he : e.1 = k
      · simp [he, ih]
      · cases hx : e.2.2 <;> simp [he, hx, ih]
  refine ⟨⟨fun hk => ?_, ?_⟩, fun i x hx => ?_⟩
  · rw [keyed_iff] at hk ⊢
    rw [hexits]
    intro e he
    obtain ⟨x, hx, rfl⟩ := mem_map.mp he
    have hkey := hk x hx
    split <;> exact hkey
  · rw [switches_eq, switches_eq, hexits, hswitches]
    exact filter_sublist.filterMap _
  · rw [Rounds.dispatchCount, Rounds.dispatchCount, switches_eq, switches_eq, hexits, hswitches]
    obtain ⟨l, l', hl⟩ := append_of_mem hx
    have hle : ∀ l : List (BlockId × BlockId × Option (String × UInt64)),
        ((l.filter fun e => e.1 ≠ k).filterMap fun e => e.2.2).length ≤
          (l.filterMap fun e => e.2.2).length :=
      fun l => (filter_sublist.filterMap _).length_le
    have h₁ := hle l
    have h₂ := hle l'
    rw [hl]
    simp only [filter_append, filterMap_append, length_append, filter_cons, ne_eq, not_true_eq_false,
      decide_false, Bool.false_eq_true, ↓reduceIte, filterMap_cons, length_cons] at h₁ h₂ ⊢
    omega

end Function

namespace Site

variable {f g : Function} {s other : Site} {base : Int64} {slot own theirs : Reg}

theorem absorb_tapers {b : Block} {x : String × UInt64}
    (hb : f.graph.block? other.dispatch = some b) (hd : dispatch? b = some x)
    (hg : s.absorb other f own theirs = .ok g) :
    f.Tapers g ∧ Rounds.dispatchCount g < Rounds.dispatchCount f := by
  obtain ⟨f₂, ⟨-, hexits⟩, rfl⟩ := absorb_eq_ok f.lawful_lax (fun h => nomatch h) hg
  have hmem : (other.dispatch, b.id, some x) ∈ f₂.exits := by
    rw [hexits, ← hd]
    exact mem_map_of_mem (f := fun e : BlockId × Block => (e.1, e.2.exit))
      (Table.get?_eq_some_iff.mp hb)
  obtain ⟨hcut, hless⟩ := f₂.tapers_cutOff (k := other.dispatch)
    (c := fun b => { b with terminator := ⟨b.terminator.id, .unreachable, .empty⟩ })
    (fun _ => rfl) fun _ => rfl
  generalize f₂.modifyBlock other.dispatch _ = f₃ at hcut hless ⊢
  have hrest : f₃.Tapers (dropSlots f₃.removeDeadBlocks other.ordinal) := by
    refine Function.tapers_of_exits ?_
    rw [(dropSlots_stays (Function.lawful_lax _) _).exits]
    exact Function.exits_removeBlocks f₃.deadBlocks f₃
  refine ⟨(Function.tapers_of_exits (hexits ▸ .refl _)).trans (hcut.trans hrest), ?_⟩
  have hle := hrest.switches.length_le
  have hlt := hless _ _ hmem
  rw [Rounds.dispatchCount, Rounds.dispatchCount, f.switches_eq, ← hexits, ← f₂.switches_eq]
  exact Nat.lt_of_le_of_lt hle hlt

theorem shiftCase_onlyExhausts (base id : Int64) : OnlyExhausts (shiftCase base id) := by
  unfold shiftCase
  dsimp only
  split
  · exact .ok _
  · exact .exhausted _

theorem nextCase_onlyExhausts (s : Site) (f : Function) : OnlyExhausts (s.nextCase f) := by
  unfold nextCase
  split
  · exact .ok _
  · exact shiftCase_onlyExhausts _ _

theorem raiseStores_onlyExhausts (slot : Reg) (base : Int64) (l : List (Operation Instruction)) :
    OnlyExhausts (raiseStores slot base l) := by
  induction l with
  | nil => exact .ok _
  | cons o l ih =>
    refine .bind ?_ fun _ _ => .bind ih fun _ _ => .ok _
    unfold raiseStore
    split
    · split
      · split
        · exact .bind (shiftCase_onlyExhausts _ _) fun _ _ => .ok _
        · exact .ok _
      · exact .ok _
    · exact .ok _

theorem raiseBlocks_onlyExhausts (slot : Reg) (base : Int64) (l : List BlockId) (f : Function) :
    OnlyExhausts (raiseBlocks slot base l f) := by
  induction l generalizing f with
  | nil => exact .ok _
  | cons key l ih =>
    unfold raiseBlocks
    split
    · exact ih f
    · exact .bind (raiseStores_onlyExhausts _ _ _) fun _ _ => ih _

theorem raiseCases_onlyExhausts (base : Int64) (l : List (Int64 × BlockId)) :
    OnlyExhausts (raiseCases base l) := by
  induction l with
  | nil => exact .ok _
  | cons x l ih =>
    exact .bind (shiftCase_onlyExhausts _ _) fun _ _ => .bind ih fun _ _ => .ok _

theorem merge_onlyExhausts (s : Site) (f : Function) (other : Site) :
    OnlyExhausts (s.merge f other) := by
  unfold merge
  split
  · split
    · refine .bind (.bind (nextCase_onlyExhausts s f) fun _ _ =>
        .bind (raiseBlocks_onlyExhausts _ _ _ f) fun _ _ => ?_) fun _ _ => .ok _
      dsimp only
      split
      · exact .bind (raiseCases_onlyExhausts _ _) fun _ _ => .ok _
      · exact .ok _
    · exact .ok _
  · exact .ok _

theorem merge_eq_ok {done : Bool} (hg : s.merge f other = .ok (g, done)) :
    (done = false ∧ g = f) ∨ done = true ∧ ∃ own theirs, s.absorb other f own theirs = .ok g := by
  unfold merge at hg
  split at hg
  · next own theirs _ _ =>
    split at hg
    · obtain ⟨g', h, hg⟩ := bind_eq_ok.mp hg
      cases hg
      exact .inr ⟨rfl, own, theirs, h⟩
    · cases hg
      exact .inl ⟨rfl, rfl⟩
  · cases hg
    exact .inl ⟨rfl, rfl⟩

theorem dispatch_of_mem_findAll (hk : f.graph.Keyed) (hs : s ∈ findAll f) :
    ∃ b, f.graph.block? s.dispatch = some b ∧ dispatch? b = some (s.callee, s.ordinal) := by
  obtain ⟨-, b, hb, hid, hd⟩ := exists_of_mem_findAll hs
  obtain ⟨k, hb⟩ := Table.mem_values_iff.mp hb
  exact ⟨b, hid ▸ hk k b hb ▸ hb, hd⟩

end Site

namespace Rounds

variable {s t : Rounds} {g : Merging} {key : FuncId} {f : Function}

/-- What one turn of merging comes to. -/
inductive Turn
  | rest
  | failed (e : FusionFault)
  | spilled
  | merged
  | refused (callee : String) (ordinal : UInt64)
deriving DecidableEq

def Turn.end? : Turn → Option (Option FusionFault)
  | .rest => some none
  | .failed e => some (some e)
  | _ => none

def refusals : List Turn → List (String × UInt64)
  | [] => []
  | .refused c n :: l => (c, n) :: refusals l
  | _ :: l => refusals l

theorem refusals_spilled (l : List Turn) : refusals (.spilled :: l) = refusals l := rfl

theorem refusals_merged (l : List Turn) : refusals (.merged :: l) = refusals l := rfl

def Merging.after (g : Merging) : Turn → Merging
  | .spilled => { g with spilled := true }
  | .merged => { g with merged := g.merged + 1 }
  | .refused c n => { g with skipped := (c, n) :: g.skipped }
  | _ => g

def turn (key : FuncId) (s : Rounds) (g : Merging) : Edit (Rounds × Turn) :=
  match s.module.function? key with
  | none => .ok (s, .rest)
  | some f => do
    let sites ← Site.all f
    match duplicatePair? (sites.mergeSort siteLe) g.skipped with
    | none => return (s, .rest)
    | some (keep, other) =>
      if !(keep.isSpilled && other.isSpilled) && !g.spilled then
        let (s, e) ← s.spill key
        return (s, (e.map Turn.failed).getD .spilled)
      else
        let (f, done) ← keep.merge f other
        return ({ s with module := s.module.setFunction key f },
          if done then .merged else .refused other.callee other.ordinal)

theorem mergeLoop_succ (key : FuncId) (n : Nat) (s : Rounds) (g : Merging) :
    mergeLoop key (n + 1) s g = turn key s g >>= fun r =>
      r.2.end?.elim (mergeLoop key n r.1 (g.after r.2)) fun e => .ok ((r.1, e), g) := by
  rw [mergeLoop, turn]
  cases s.module.function? key with
  | none => rfl
  | some f =>
    dsimp only
    cases Site.all f with
    | error a => rfl
    | ok sites =>
      dsimp only [bind, Except.bind]
      cases duplicatePair? (sites.mergeSort siteLe) g.skipped with
      | none => rfl
      | some p =>
        obtain ⟨keep, other⟩ := p
        dsimp only
        by_cases hc : (!(keep.isSpilled && other.isSpilled) && !g.spilled) = true
        · rw [if_pos hc, if_pos hc]
          cases s.spill key with
          | error a => rfl
          | ok r =>
            obtain ⟨s₁, e⟩ := r
            cases e <;> rfl
        · rw [if_neg hc, if_neg hc]
          cases keep.merge f other with
          | error a => rfl
          | ok r =>
            obtain ⟨f₁, done⟩ := r
            cases done <;> rfl

theorem spill_eq_ok {x : Option FusionFault} (hf : s.module.function? key = some f)
    (hs : s.spill key = .ok (t, x)) : (∃ e, t = s ∧ x = some (.spill f.name e)) ∨
      x = none ∧ ∃ g n, Spill.demote f = .ok (.ok (g, n)) ∧ t.module.function? key = some g := by
  unfold spill at hs
  rw [hf] at hs
  obtain ⟨r, hr, hs⟩ := bind_eq_ok.mp hs
  cases r with
  | error e =>
    cases hs
    exact .inl ⟨e, rfl, rfl⟩
  | ok r =>
    obtain ⟨g, n⟩ := r
    cases hs
    exact .inr ⟨rfl, g, n, hr, Module.function?_setFunction_self hf⟩

theorem spill_onlyExhausts (s : Rounds) (key : FuncId) : OnlyExhausts (s.spill key) := by
  unfold spill
  split
  · exact .ok _
  · refine .bind (Spill.demote_onlyExhausts _) fun r _ => ?_
    cases r <;> exact .ok _

theorem turn_onlyExhausts (hf : s.module.function? key = some f) (hk : f.graph.Keyed) :
    OnlyExhausts (turn key s g) := by
  unfold turn
  rw [hf]
  dsimp only
  rw [Site.all_eq hk]
  dsimp only [bind, Except.bind]
  split
  · exact .ok _
  · split
    · exact .bind (spill_onlyExhausts s key) fun _ _ => .ok _
    · exact .bind (Site.merge_onlyExhausts _ f _) fun _ _ => .ok _

theorem not_mem_of_duplicatePair? {sites : List Site} {skipped : List (String × UInt64)}
    {keep other : Site} (h : duplicatePair? sites skipped = some (keep, other)) :
    (other.callee, other.ordinal) ∉ skipped := by
  obtain ⟨a, -, h⟩ := exists_of_findSome?_eq_some h
  split at h
  · cases h
  · next hskip =>
    split at h
    · cases h
    · split at h
      · cases h
        exact fun hm => hskip (contains_iff_mem.mpr hm)
      · cases h

/-- What a turn can do to a function. -/
inductive Takes (f : Function) (g : Merging) : Turn → Function → Prop
  | rest (h : duplicatePair? ((Site.findAll f).mergeSort siteLe) g.skipped = none) : Takes f g .rest f
  | failed (h : g.spilled = false) (e : SpillFault) : Takes f g (.failed (.spill f.name e)) f
  | spilled {f' : Function} (h : g.spilled = false) (hf : f.Tapers f') : Takes f g .spilled f'
  | merged {f' : Function} (hf : f.Tapers f') (h : dispatchCount f' < dispatchCount f) :
      Takes f g .merged f'
  | refused {c : String} {n : UInt64} (h : (c, n) ∉ g.skipped)
      (hf : (c, n) ∈ f.graph.blockList.filterMap Site.dispatch?) : Takes f g (.refused c n) f

theorem takes_of_turn {x : Turn} (hf : s.module.function? key = some f) (hk : f.graph.Keyed)
    (h : turn key s g = .ok (t, x)) :
    ∃ f', t.module.function? key = some f' ∧ Takes f g x f' ∧ (x.end? ≠ none → t = s) := by
  unfold turn at h
  rw [hf] at h
  dsimp only at h
  rw [Site.all_eq hk] at h
  dsimp only [bind, Except.bind] at h
  split at h
  · next hp =>
    cases h
    exact ⟨f, hf, .rest hp, fun _ => rfl⟩
  · next keep other hp =>
    split at h
    · next hc =>
      simp only [Bool.and_eq_true, Bool.not_eq_true'] at hc
      obtain ⟨⟨s₁, e⟩, h₁, h⟩ := bind_eq_ok.mp h
      rcases spill_eq_ok hf h₁ with ⟨e, rfl, rfl⟩ | ⟨rfl, f', n, hd, hf'⟩
      · cases h
        exact ⟨f, hf, .failed hc.2 e, fun _ => rfl⟩
      · cases h
        refine ⟨f', hf', .spilled hc.2 (Function.tapers_of_exits ?_), fun hx => absurd rfl hx⟩
        rw [(Spill.demote_stays f.lawful_lax hd).exits]
    · obtain ⟨⟨f', done⟩, h₁, h⟩ := bind_eq_ok.mp h
      cases h
      obtain ⟨-, hother, -, -⟩ := of_duplicatePair? hp
      obtain ⟨b, hb, hd⟩ := Site.dispatch_of_mem_findAll hk hother
      have hself : (s.module.setFunction key f').function? key = some f' :=
        Module.function?_setFunction_self hf
      refine ⟨f', hself, ?_, fun hx => ?_⟩
      · rcases Site.merge_eq_ok h₁ with ⟨rfl, rfl⟩ | ⟨rfl, own, theirs, h₁⟩
        · refine .refused (not_mem_of_duplicatePair? hp) (Function.mem_switches.mpr ?_)
          exact ⟨other.dispatch, b, hb, hd⟩
        · obtain ⟨htapers, hless⟩ := Site.absorb_tapers hb hd h₁
          exact .merged htapers hless
      · cases done <;> exact absurd rfl hx

/-- Turns that are taken one after the other, none of which is the last. -/
inductive Turns (key : FuncId) : Rounds → Merging → List Turn → Rounds → Merging → Prop
  | nil (s : Rounds) (g : Merging) : Turns key s g [] s g
  | cons {s s' t : Rounds} {g g' : Merging} {x : Turn} {l : List Turn}
      (h : turn key s g = .ok (s', x)) (hx : x.end? = none)
      (hl : Turns key s' (g.after x) l t g') : Turns key s g (x :: l) t g'

/-- What a number of turns can do to a function. -/
structure Course (f : Function) (g : Merging) (l : List Turn) (f' : Function) (g' : Merging) :
    Prop where
  tapers : f.Tapers f'
  spills : l.count .spilled ≤ if g.spilled then 0 else 1
  merges : l.count .merged + dispatchCount f' ≤ dispatchCount f
  once : (refusals l).Nodup
  fresh : ∀ x ∈ refusals l, x ∉ g.skipped ∧
    x ∈ f.graph.blockList.filterMap Site.dispatch?
  length : l.length = l.count .spilled + l.count .merged + (refusals l).length
  merged : g'.merged = g.merged + l.count .merged
  spilled : g'.spilled = false → .spilled ∉ l ∧ g.spilled = false
  skipped : ∀ x, x ∈ g'.skipped ↔ x ∈ g.skipped ∨ x ∈ refusals l

theorem course_nil (f : Function) (g : Merging) : Course f g [] f g :=
  ⟨Function.tapers_of_exits (.refl _), Nat.zero_le _, by simp, nodup_nil, by simp [refusals], rfl,
    rfl, fun h => ⟨not_mem_nil, h⟩, by simp [refusals]⟩

theorem Course.cons {f f' f'' : Function} {g g' : Merging} {x : Turn} {l : List Turn}
    (hx : x.end? = none) (h : Takes f g x f') (hl : Course f' (g.after x) l f'' g') :
    Course f g (x :: l) f'' g' := by
  have hmerges := hl.merges
  have hlength := hl.length
  have hmerged := hl.merged
  cases h with
  | rest h => cases hx
  | failed h e => cases hx
  | spilled hs hf =>
    have hnone : l.count .spilled ≤ 0 := hl.spills
    have hle : dispatchCount f' ≤ dispatchCount f := hf.switches.length_le
    refine ⟨hf.trans hl.tapers, ?_, ?_, hl.once, fun x hx => ?_, ?_, ?_, fun h => ?_, hl.skipped⟩
    · rw [hs, count_cons_self]
      simpa using hnone
    · rw [count_cons_of_ne (by decide)]
      omega
    · exact ⟨(hl.fresh x hx).1, hf.switches.subset (hl.fresh x hx).2⟩
    · rw [length_cons, count_cons_self, count_cons_of_ne (by decide), refusals_spilled]
      omega
    · rw [count_cons_of_ne (by decide)]
      exact hmerged
    · cases (hl.spilled h).2
  | merged hf hlt =>
    refine ⟨hf.trans hl.tapers, ?_, ?_, hl.once, fun x hx => ?_, ?_, ?_, fun h => ?_, hl.skipped⟩
    · rw [count_cons_of_ne (by decide)]
      exact hl.spills
    · rw [count_cons_self]
      omega
    · exact ⟨(hl.fresh x hx).1, hf.switches.subset (hl.fresh x hx).2⟩
    · rw [length_cons, count_cons_self, count_cons_of_ne (by decide), refusals_merged]
      omega
    · rw [count_cons_self, hmerged, Merging.after]
      exact Nat.succ_add_eq_add_succ _ _
    · exact ⟨not_mem_cons_of_ne_of_not_mem (by decide) (hl.spilled h).1, (hl.spilled h).2⟩
  | @refused c n hnew hf =>
    have hcn : (c, n) ∉ refusals l := fun hm => (hl.fresh _ hm).1 mem_cons_self
    refine ⟨hl.tapers, ?_, ?_, nodup_cons.mpr ⟨hcn, hl.once⟩, fun x hx => ?_, ?_, ?_,
      fun h => ?_, fun x => ?_⟩
    · rw [count_cons_of_ne (by simp)]
      exact hl.spills
    · rw [count_cons_of_ne (by simp)]
      exact hmerges
    · rcases mem_cons.mp hx with rfl | hx
      · exact ⟨hnew, hf⟩
      · exact ⟨fun hm => (hl.fresh x hx).1 (mem_cons_of_mem _ hm), (hl.fresh x hx).2⟩
    · rw [length_cons, count_cons_of_ne (by simp), count_cons_of_ne (by simp), refusals, length_cons]
      omega
    · rw [count_cons_of_ne (by simp)]
      exact hmerged
    · exact ⟨not_mem_cons_of_ne_of_not_mem (by simp) (hl.spilled h).1, (hl.spilled h).2⟩
    · rw [hl.skipped, Merging.after, refusals, mem_cons, mem_cons]
      tauto

theorem Turns.course {l : List Turn} {g' : Merging} (h : Turns key s g l t g')
    (hf : s.module.function? key = some f) (hk : f.graph.Keyed) :
    ∃ f', t.module.function? key = some f' ∧ Course f g l f' g' := by
  induction h generalizing f with
  | nil s g => exact ⟨f, hf, course_nil f g⟩
  | cons h hx hl ih =>
    obtain ⟨f₁, hf₁, htakes, -⟩ := takes_of_turn hf hk h
    have hk₁ : f₁.graph.Keyed := by
      cases htakes with
      | rest h => exact hk
      | failed h e => exact hk
      | spilled h hf => exact hf.keyed hk
      | merged hf h => exact hf.keyed hk
      | refused h hf => exact hk
    obtain ⟨f', hf', hcourse⟩ := ih hf₁ hk₁
    exact ⟨f', hf', hcourse.cons hx htakes⟩

theorem Course.length_le {f' : Function} {g' : Merging} {l : List Turn} (h : Course f g l f' g') :
    l.length ≤ 2 * dispatchCount f + 1 := by
  have hrefusals : (refusals l).length ≤ dispatchCount f :=
    (h.once.subperm fun x hx => (h.fresh x hx).2).length_le
  have hspills : l.count .spilled ≤ 1 := h.spills.trans (by split <;> omega)
  have hmerges := h.merges
  have hlength := h.length
  omega

theorem exists_turns (key : FuncId) (n : Nat) (s : Rounds) (g : Merging) :
    ∃ l t g', Turns key s g l t g' ∧ (l.length = n ∨ l.length < n ∧
      ∀ u x, turn key t g' = .ok (u, x) → x.end? ≠ none) := by
  induction n generalizing s g with
  | zero => exact ⟨[], s, g, .nil s g, .inl rfl⟩
  | succ n ih =>
    by_cases hend : ∀ u x, turn key s g = .ok (u, x) → x.end? ≠ none
    · exact ⟨[], s, g, .nil s g, .inr ⟨Nat.succ_pos n, hend⟩⟩
    · push Not at hend
      obtain ⟨u, x, h, hx⟩ := hend
      obtain ⟨l, t, g', hl, hn⟩ := ih u (g.after x)
      refine ⟨x :: l, t, g', .cons h hx hl, ?_⟩
      rw [length_cons]
      exact hn.imp (by omega) fun h => ⟨by omega, h.2⟩

theorem Turns.mergeLoop_eq {l : List Turn} {g' : Merging} (h : Turns key s g l t g') (n : Nat) :
    mergeLoop key (l.length + n) s g = mergeLoop key n t g' := by
  induction h with
  | nil s g => rw [length_nil, Nat.zero_add]
  | cons h hx hl ih =>
    rw [length_cons, Nat.add_right_comm, mergeLoop_succ, h]
    dsimp only [bind, Except.bind]
    rw [hx]
    exact ih

theorem mem_refusals {c : String} {n : UInt64} {l : List Turn} (h : (c, n) ∈ refusals l) :
    .refused c n ∈ l := by
  fun_induction refusals l with
  | case1 => cases h
  | case2 c' n' l ih =>
    rcases mem_cons.mp h with h | h
    · cases h
      exact mem_cons_self
    · exact mem_cons_of_mem _ (ih h)
  | case3 x l _ ih => exact mem_cons_of_mem _ (ih h)

/-- Merging ends after some turns, whatever the notes of the function say. It moves values to memory
at most once and merges at most as often as there are switches of sites. If it does not fail and no
counter stands at its last value, every site with a lower one of the same callee was refused. -/
theorem mergeSites_settles (hf : s.module.function? key = some f) (hk : f.graph.Keyed) :
    ∃ l t g, Turns key s ⟨[], false, 0⟩ l t g ∧ l.length ≤ 2 * dispatchCount f + 1 ∧
      l.count .spilled ≤ 1 ∧ l.count .merged ≤ dispatchCount f ∧
      ((∃ c, turn key t g = .error (.exhausted c) ∧
          s.mergeSites key = .error (.exhausted c)) ∨
        (∃ name e, .spilled ∉ l ∧ turn key t g = .ok (t, .failed (.spill name e)) ∧
          s.mergeSites key = .ok (t, some (.spill name e))) ∨
        (turn key t g = .ok (t, .rest) ∧
          s.mergeSites key = (if 0 < l.count .merged then (t.addMerged (l.count .merged)).spill key
            else .ok (t, none)) ∧
          ∃ f', t.module.function? key = some f' ∧ Site.all f' = .ok (Site.findAll f') ∧
            ∀ a ∈ Site.findAll f', ∀ b ∈ Site.findAll f', a.callee = b.callee →
              a.ordinal < b.ordinal → .refused b.callee b.ordinal ∈ l)) := by
  obtain ⟨l, t, g, hturns, hn⟩ := exists_turns key (2 * dispatchCount f + 2) s ⟨[], false, 0⟩
  obtain ⟨f', hf', hcourse⟩ := hturns.course hf hk
  have hle := hcourse.length_le
  have hmerges := hcourse.merges
  have hkeyed := hcourse.tapers.keyed hk
  have hmerged : g.merged = l.count .merged := hcourse.merged.trans (Nat.zero_add _)
  obtain ⟨-, hlast⟩ := hn.resolve_left (by omega)
  refine ⟨l, t, g, hturns, hle, hcourse.spills, by omega, ?_⟩
  have hloop : mergeLoop key (2 * dispatchCount f + 2) s ⟨[], false, 0⟩ =
      mergeLoop key (2 * dispatchCount f + 1 - l.length + 1) t g := by
    rw [← hturns.mergeLoop_eq]
    congr 1
    omega
  unfold mergeSites
  rw [hf]
  dsimp only
  rw [hloop, mergeLoop_succ]
  cases hturn : turn key t g with
  | error a =>
    obtain ⟨c, rfl⟩ := turn_onlyExhausts hf' hkeyed a hturn
    exact .inl ⟨c, rfl, rfl⟩
  | ok r =>
    obtain ⟨u, x⟩ := r
    obtain ⟨f'', -, htakes, hsame⟩ := takes_of_turn hf' hkeyed hturn
    have hend := hlast u x hturn
    cases hsame hend
    cases htakes with
    | rest hpair =>
      refine .inr (.inr ⟨rfl, ?_, f', hf', Site.all_eq hkeyed, fun a ha b hb hc hlt => ?_⟩)
      · rw [← hmerged]
        rfl
      · have hskip := mem_skipped_of_duplicatePair? hpair ha hb hc hlt
        exact mem_refusals (((hcourse.skipped _).mp hskip).resolve_left not_mem_nil)
    | failed h e => exact .inr (.inl ⟨f'.name, e, (hcourse.spilled h).1, rfl, rfl⟩)
    | spilled h hf => exact absurd rfl hend
    | merged hf h => exact absurd rfl hend
    | refused h hf => exact absurd rfl hend

/-- Two sites of one callee that do not fit, since one of them has an argument more, and two of
another callee that do. -/
def lopsided : Function :=
  { Function.create ⟨0⟩ "lopsided" [("x", .i64)] .void with
    nextReg := 11
    graph := ⟨.ofList [
      (⟨0⟩, ⟨⟨0⟩, none, [],
        [.plain ⟨0⟩ (.alloca ⟨1⟩ .i64), .plain ⟨1⟩ (.alloca ⟨2⟩ .i64),
          .plain ⟨2⟩ (.alloca ⟨3⟩ .i64),
          ⟨⟨12⟩, .alloca ⟨7⟩ .i64, Site.calleeTags 2 SiteNote.caseId "stem"⟩,
          ⟨⟨13⟩, .alloca ⟨8⟩ .i64, Site.calleeTags 3 SiteNote.caseId "stem"⟩,
          ⟨⟨14⟩, .store (.reg ⟨8⟩) (.int 0), Site.calleeTags 3 SiteNote.caseId "stem"⟩],
        .plain ⟨3⟩ (.switch (.reg ⟨0⟩) [(0, ⟨1⟩), (1, ⟨2⟩), (2, ⟨4⟩)] ⟨5⟩)⟩),
      (⟨1⟩, ⟨⟨1⟩, none, [],
        [⟨⟨4⟩, .load ⟨4⟩ (.reg ⟨1⟩) .i64, Site.calleeTags 0 SiteNote.caseId "leaf"⟩,
          ⟨⟨5⟩, .load ⟨5⟩ (.reg ⟨2⟩) .i64, Site.argumentTags 0 "leaf" 0⟩,
          ⟨⟨6⟩, .marker, Site.calleeTags 0 SiteNote.start "leaf"⟩],
        ⟨⟨7⟩, .switch (.reg ⟨4⟩) [] ⟨3⟩, Site.calleeTags 0 SiteNote.function "leaf"⟩⟩),
      (⟨2⟩, ⟨⟨2⟩, none, [],
        [⟨⟨8⟩, .load ⟨6⟩ (.reg ⟨3⟩) .i64, Site.calleeTags 1 SiteNote.caseId "leaf"⟩,
          ⟨⟨9⟩, .marker, Site.calleeTags 1 SiteNote.start "leaf"⟩],
        ⟨⟨10⟩, .switch (.reg ⟨6⟩) [] ⟨3⟩, Site.calleeTags 1 SiteNote.function "leaf"⟩⟩),
      (⟨3⟩, ⟨⟨3⟩, none, [], [], .plain ⟨11⟩ (.ret none)⟩),
      (⟨4⟩, ⟨⟨4⟩, none, [],
        [⟨⟨15⟩, .load ⟨9⟩ (.reg ⟨7⟩) .i64, Site.calleeTags 2 SiteNote.caseId "stem"⟩,
          ⟨⟨16⟩, .marker, Site.calleeTags 2 SiteNote.start "stem"⟩],
        ⟨⟨17⟩, .switch (.reg ⟨9⟩) [(0, ⟨3⟩)] ⟨6⟩, Site.calleeTags 2 SiteNote.function "stem"⟩⟩),
      (⟨5⟩, ⟨⟨5⟩, none, [],
        [⟨⟨18⟩, .load ⟨10⟩ (.reg ⟨8⟩) .i64, Site.calleeTags 3 SiteNote.caseId "stem"⟩,
          ⟨⟨19⟩, .marker, Site.calleeTags 3 SiteNote.start "stem"⟩],
        ⟨⟨20⟩, .switch (.reg ⟨10⟩) [(0, ⟨6⟩)] ⟨3⟩, Site.calleeTags 3 SiteNote.function "stem"⟩⟩),
      (⟨6⟩, ⟨⟨6⟩, none, [], [], .plain ⟨21⟩ .unreachable⟩)], ⟨0⟩, 7, 22⟩ }

def lopsidedRounds : Rounds :=
  .start .default ⟨"lopsided", .ofList [(⟨0⟩, lopsided)], .empty, 1, 0⟩

theorem keyed_lopsided : lopsided.graph.Keyed := by
  unfold Graph.Keyed Graph.block?
  decide

theorem turns_lopsided :
    (turn ⟨0⟩ lopsidedRounds ⟨[], false, 0⟩).toOption.map Prod.snd = some (.refused "leaf" 1) ∧
      (turn ⟨0⟩ lopsidedRounds ⟨[("leaf", 1)], false, 0⟩).toOption.map Prod.snd = some .merged := by
  have hf : lopsidedRounds.module.function? ⟨0⟩ = some lopsided := rfl
  have hall : Site.all lopsided = .ok (Site.findAll lopsided) := Site.all_eq keyed_lopsided
  have hsorted : (Site.findAll lopsided).Pairwise fun a b => siteLe a b := by decide +kernel
  simp only [turn, hf, hall, bind, Except.bind, mergeSort_of_pairwise hsorted]
  decide +kernel

/-- One pair is refused, the other one is merged, and merging ends after at most nine turns. -/
theorem lopsided_settles :
    lopsided.graph.Keyed ∧
      (turn ⟨0⟩ lopsidedRounds ⟨[], false, 0⟩).toOption.map Prod.snd = some (.refused "leaf" 1) ∧
      (turn ⟨0⟩ lopsidedRounds ⟨[("leaf", 1)], false, 0⟩).toOption.map Prod.snd = some .merged ∧
      ∃ l t g, Turns ⟨0⟩ lopsidedRounds ⟨[], false, 0⟩ l t g ∧ l.length ≤ 9 ∧
        l.count .spilled ≤ 1 ∧ l.count .merged ≤ 4 ∧
        ((lopsidedRounds.mergeSites ⟨0⟩).isOk → ∃ u x, turn ⟨0⟩ t g = .ok (u, x)) := by
  have hf : lopsidedRounds.module.function? ⟨0⟩ = some lopsided := rfl
  obtain ⟨l, t, g, hturns, hlength, hspills, hmerges, hend⟩ :=
    mergeSites_settles hf keyed_lopsided
  have hcount : dispatchCount lopsided = 4 := by cbv
  rw [hcount] at hlength hmerges
  refine ⟨keyed_lopsided, turns_lopsided.1, turns_lopsided.2, l, t, g, hturns, hlength, hspills,
    hmerges, fun hok => ?_⟩
  rcases hend with ⟨c, -, herror⟩ | ⟨name, e, -, hturn, -⟩ | ⟨hturn, -, -⟩
  · rw [herror] at hok
    cases hok
  · exact ⟨_, _, hturn⟩
  · exact ⟨_, _, hturn⟩

end Rounds

end SiteFusion
