import SiteFusion.Fusion.Candidates
import SiteFusion.Proofs.Frames
import SiteFusion.Proofs.Reaching

namespace SiteFusion

open List

theorem Module.mem_functionCalls (caller : FuncId) {c : FuncId} {f : Function} {o : OpId} :
    (∃ s ∈ functionCalls caller f, s.callee = c ∧ s.op = o) ↔ f.Calls o c := by
  constructor
  · rintro ⟨s, hs, rfl, rfl⟩
    obtain ⟨⟨k, b⟩, hk, hs⟩ := mem_flatMap.mp hs
    obtain ⟨a, ha, hs⟩ := mem_filterMap.mp hs
    obtain ⟨c, hc, rfl⟩ := Option.map_eq_some_iff.mp hs
    exact ⟨k, b, Table.get?_eq_some_iff.mpr hk, a, ha, rfl, hc⟩
  · rintro ⟨k, b, hb, a, ha, rfl, hc⟩
    refine ⟨⟨caller, c, k, a.id⟩, mem_flatMap.mpr ⟨(k, b), Table.get?_eq_some_iff.mp hb, ?_⟩,
      rfl, rfl⟩
    refine mem_filterMap.mpr ⟨a, ha, ?_⟩
    rw [hc]
    rfl

def CallGroup.pairs (gs : List CallGroup) : List (FuncId × OpId) :=
  gs.flatMap fun g => g.calls.map fun o => (g.callee, o)

/-- The callees of a caller, each with the caller. -/
def CallerGroups.targets (c : CallerGroups) : List (FuncId × FuncId) :=
  c.groups.map fun g => (c.caller, g.callee)

namespace Candidates

variable {f : Function} {g : CallerGroups} {gs : List CallGroup} {l : List (FuncId × OpId)}
  {recursive : List FuncId} {x y : FuncId × OpId}

theorem mem_pairs_addCall :
    y ∈ CallGroup.pairs (addCall gs x) ↔ y ∈ CallGroup.pairs gs ∨ y = x := by
  obtain ⟨c, o⟩ := x
  induction gs with
  | nil => simp [addCall, CallGroup.pairs]
  | cons g gs ih =>
    rw [addCall]
    split
    · next hg =>
      subst hg
      simp only [CallGroup.pairs, flatMap_cons, map_append, map_cons, map_nil,
        mem_append, mem_singleton]
      exact or_right_comm
    · simp only [CallGroup.pairs, flatMap_cons, mem_append] at ih ⊢
      rw [ih, or_assoc]

theorem calls_ne_nil_of_mem_addCall (h : ∀ g ∈ gs, g.calls ≠ []) :
    ∀ g ∈ addCall gs x, g.calls ≠ [] := by
  obtain ⟨c, o⟩ := x
  induction gs with
  | nil =>
    intro g hg
    rw [mem_singleton.mp hg]
    exact cons_ne_nil _ _
  | cons g gs ih =>
    obtain ⟨hg, hgs⟩ := forall_mem_cons.mp h
    rw [addCall]
    split
    · exact forall_mem_cons.mpr ⟨append_ne_nil_of_right_ne_nil _ (cons_ne_nil _ _), hgs⟩
    · exact forall_mem_cons.mpr ⟨hg, ih hgs⟩

theorem mem_pairs_foldl_addCall :
    y ∈ CallGroup.pairs (l.foldl addCall gs) ↔ y ∈ CallGroup.pairs gs ∨ y ∈ l := by
  induction l generalizing gs with
  | nil => simp
  | cons x l ih => rw [foldl_cons, ih, mem_pairs_addCall, mem_cons, or_assoc]

theorem calls_ne_nil_of_mem_foldl (h : ∀ g ∈ gs, g.calls ≠ []) :
    ∀ g ∈ l.foldl addCall gs, g.calls ≠ [] := by
  induction l generalizing gs with
  | nil => exact h
  | cons x l ih => exact ih (calls_ne_nil_of_mem_addCall h)

/-- A call of a function in another one may be replaced. -/
structure Candidate (m : Module) (excluded : List (FuncId × OpId)) (settings : Settings)
    (k : FuncId) (o : OpId) (c : FuncId) : Prop where
  caller : ∃ f, m.function? k = some f ∧ isCaller settings f = true ∧ f.Calls o c
  callee : ∃ d, m.function? c = some d ∧ isEligible m.recursiveFunctions k d = true
  tried : (k, o) ∉ excluded

variable {m : Module} {excluded : List (FuncId × OpId)} {settings : Settings} {k c : FuncId}
  {o : OpId}

theorem mem_calls :
    (c, o) ∈ calls m excluded recursive k f ↔ f.Calls o c ∧
      (∃ d, m.function? c = some d ∧ isEligible recursive k d = true) ∧ (k, o) ∉ excluded := by
  rw [calls, mem_filterMap, ← Module.mem_functionCalls k]
  constructor
  · rintro ⟨s, hs, hc⟩
    split at hc
    · cases hc
    · next hx =>
      split at hc
      · cases hc
      · next d hd =>
        split at hc
        · next he =>
          cases hc
          exact ⟨⟨s, hs, rfl, rfl⟩, ⟨d, hd, he⟩, mt contains_iff_mem.mpr hx⟩
        · cases hc
  · rintro ⟨⟨s, hs, rfl, rfl⟩, ⟨d, hd, he⟩, hx⟩
    refine ⟨s, hs, ?_⟩
    rw [if_neg (mt contains_iff_mem.mp hx), hd]
    exact if_pos he

theorem mem_discover :
    g ∈ discover m excluded settings ↔ ∃ f, m.function? g.caller = some f ∧
      isCaller settings f = true ∧ g.groups ≠ [] ∧
      g.groups = groupsOf m excluded m.recursiveFunctions g.caller f := by
  rw [discover, mem_filterMap]
  constructor
  · rintro ⟨⟨k, f⟩, hk, hg⟩
    split at hg
    · next hc =>
      split at hg
      · cases hg
      · next hne =>
        cases hg
        exact ⟨f, Table.get?_eq_some_iff.mpr hk, hc, hne, rfl⟩
    · cases hg
  · rintro ⟨f, hf, hc, hne, he⟩
    refine ⟨(g.caller, f), Table.get?_eq_some_iff.mp hf, ?_⟩
    rw [if_pos hc, ← he]
    split
    · next h => exact absurd h hne
    · rfl

theorem mem_pairs_groupsOf :
    y ∈ CallGroup.pairs (groupsOf m excluded recursive k f) ↔
      y ∈ calls m excluded recursive k f := by
  rw [groupsOf, mem_pairs_foldl_addCall]
  simp [CallGroup.pairs]

theorem candidate_of_mem (hg : g ∈ discover m excluded settings)
    (hc : (c, o) ∈ CallGroup.pairs g.groups) : Candidate m excluded settings g.caller o c := by
  obtain ⟨f, hf, hcaller, -, he⟩ := mem_discover.mp hg
  rw [he] at hc
  obtain ⟨hcalls, hcallee, hx⟩ := mem_calls.mp (mem_pairs_groupsOf.mp hc)
  exact ⟨⟨f, hf, hcaller, hcalls⟩, hcallee, hx⟩

theorem candidate_of_mem_group {cg : CallGroup} (hg : g ∈ discover m excluded settings)
    (hcg : cg ∈ g.groups) : ∃ o, Candidate m excluded settings g.caller o cg.callee := by
  obtain ⟨f, -, -, -, he⟩ := mem_discover.mp hg
  have hne : cg.calls ≠ [] := by
    have hnil : ∀ g ∈ ([] : List CallGroup), g.calls ≠ [] := fun _ h => nomatch h
    rw [he] at hcg
    exact calls_ne_nil_of_mem_foldl hnil cg hcg
  obtain ⟨o, ho⟩ := exists_mem_of_ne_nil _ hne
  refine ⟨o, candidate_of_mem hg (mem_flatMap.mpr ⟨cg, hcg, ?_⟩)⟩
  exact List.mem_map_of_mem ho

theorem candidate_of_mem_targets
    (h : (k, c) ∈ (discover m excluded settings).flatMap CallerGroups.targets) :
    ∃ o, Candidate m excluded settings k o c := by
  obtain ⟨g, hg, h⟩ := mem_flatMap.mp h
  obtain ⟨cg, hcg, he⟩ := List.mem_map.mp h
  cases he
  exact candidate_of_mem_group hg hcg

end Candidates

end SiteFusion
