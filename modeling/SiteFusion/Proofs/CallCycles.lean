import SiteFusion.Proofs.CandidateCalls

namespace SiteFusion

namespace Module

variable {m : Module} {k c : FuncId}

def Calls (m : Module) (k c : FuncId) : Prop := ∃ f o, m.function? k = some f ∧ f.Calls o c

theorem mem_callees {f : Function} :
    c ∈ (functionCalls k f).map CallSite.callee ↔ ∃ o, f.Calls o c := by
  constructor
  · intro h
    obtain ⟨s, hs, rfl⟩ := List.mem_map.mp h
    exact ⟨s.op, (mem_functionCalls k).mp ⟨s, hs, rfl, rfl⟩⟩
  · rintro ⟨o, ho⟩
    obtain ⟨s, hs, rfl, -⟩ := (mem_functionCalls k).mpr ho
    exact List.mem_map_of_mem hs

theorem mem_calleesOf : c ∈ m.calleesOf k ↔ m.Calls k c := by
  rw [calleesOf, Calls]
  cases m.function? k with
  | none => simp
  | some f => simp only [mem_callees, Option.some.injEq, exists_and_left, exists_eq_left']

theorem calls_of_callsItself (h : m.callsItself k = true) : m.Calls k k := by
  obtain ⟨s, hs, heq⟩ := List.any_eq_true.mp h
  obtain ⟨⟨caller, f⟩, he, hs⟩ := List.mem_flatMap.mp hs
  have hcaller : s.caller = caller := by
    obtain ⟨_, -, hs⟩ := List.mem_flatMap.mp hs
    obtain ⟨_, -, hs⟩ := List.mem_filterMap.mp hs
    obtain ⟨_, -, rfl⟩ := Option.map_eq_some_iff.mp hs
    rfl
  simp only [Bool.and_eq_true, decide_eq_true_eq] at heq
  obtain ⟨rfl, hcallee⟩ := heq
  exact ⟨f, s.op, Table.get?_eq_some_iff.mpr (hcaller ▸ he),
    (mem_functionCalls caller).mp ⟨s, hs, hcallee, rfl⟩⟩

theorem mem_recursiveFunctions : k ∈ m.recursiveFunctions ↔ Relation.TransGen m.Calls k k := by
  have hnodes : ∀ a, a ∉ m.functions.keys → m.calleesOf a = [] := by
    intro a ha
    refine List.eq_nil_iff_forall_not_mem.mpr fun b hb => ha ?_
    obtain ⟨f, -, hf, -⟩ := mem_calleesOf.mp hb
    exact Table.mem_keys_iff.mpr ⟨f, hf⟩
  have hedge : (fun a b => b ∈ m.calleesOf a) = m.Calls := by
    funext a b
    exact propext mem_calleesOf
  have hfuel : m.functions.keys.length < m.functions.size + 1 := by
    rw [Table.keys, List.length_map]
    exact Nat.lt_succ_self _
  have hsearch : (search m.calleesOf k (m.functions.size + 1) k []).1 = true ↔
      Relation.TransGen m.Calls k k := hedge ▸ search_iff hnodes hfuel
  rw [recursiveFunctions, List.mem_filter, isRecursive, Bool.or_eq_true, hsearch]
  refine ⟨fun h => h.2.elim (fun h => .single (calls_of_callsItself h)) id, fun h => ⟨?_, .inr h⟩⟩
  obtain ⟨b, ⟨f, o, hf, -⟩, -⟩ := Relation.TransGen.head'_iff.mp h
  exact Table.mem_keys_iff.mpr ⟨f, hf⟩

end Module

namespace Candidates

def Replaces (m : Module) (excluded : List (FuncId × OpId)) (settings : Settings)
    (k c : FuncId) : Prop :=
  (k, c) ∈ (discover m excluded settings).flatMap CallerGroups.targets

/-- Functions are recursive exactly if calls lead back to them. Whatever calls are excluded, those
that are found lead around no cycle, since a callee is never recursive. -/
theorem recursion_exact (m : Module) :
    (∀ k f, m.function? k = some f →
      (k ∈ m.recursiveFunctions ↔ Relation.TransGen m.Calls k k)) ∧
    ((∀ k f, m.function? k = some f → f.id = k) →
      ∀ excluded settings k, ¬ Relation.TransGen (Replaces m excluded settings) k k) := by
  refine ⟨fun k _ _ => Module.mem_recursiveFunctions, fun hkey excluded settings k hcycle => ?_⟩
  have hcalls : Relation.TransGen m.Calls k k := by
    refine Relation.TransGen.mono (fun a b hab => ?_) k k hcycle
    obtain ⟨o, hc⟩ := candidate_of_mem_targets hab
    obtain ⟨f, hf, -, ho⟩ := hc.caller
    exact ⟨f, o, hf, ho⟩
  obtain ⟨a, -, hlast⟩ := Relation.TransGen.tail'_iff.mp hcycle
  obtain ⟨o, hc⟩ := candidate_of_mem_targets hlast
  obtain ⟨d, hd, helig⟩ := hc.callee
  simp only [isEligible, hkey k d hd, Bool.and_eq_true, Bool.not_eq_true'] at helig
  have hrec := List.contains_iff_mem.mpr (Module.mem_recursiveFunctions.mpr hcalls)
  rw [helig.2] at hrec
  cases hrec

def relay (id : FuncId) (name : String) (callees : List FuncId) : Function :=
  let calls := callees.mapIdx fun i c => Operation.plain ⟨i.toUInt32⟩ (.call none c [])
  let exit : OpId := ⟨callees.length.toUInt32⟩
  { Function.create id name [] .void with
    graph := ⟨.ofList [(⟨0⟩, ⟨⟨0⟩, none, [], calls, .plain exit (.ret none)⟩)], ⟨0⟩, 1,
      exit.index + 1⟩ }

/-- Two cycles that share a function, and a call of a function that is not there. -/
def gears : Module where
  name := "gears"
  functions := .ofList [(⟨0⟩, relay ⟨0⟩ "crank" [⟨1⟩, ⟨4⟩]), (⟨1⟩, relay ⟨1⟩ "axle" [⟨4⟩, ⟨2⟩, ⟨3⟩]),
    (⟨2⟩, relay ⟨2⟩ "wheel" [⟨9⟩, ⟨1⟩]), (⟨3⟩, relay ⟨3⟩ "pinion" [⟨2⟩, ⟨1⟩]), (⟨4⟩, relay ⟨4⟩ "bell" [])]
  globals := .empty
  nextFunction := 5
  nextGlobal := 0

theorem gears_recursion : gears.recursiveFunctions = [⟨1⟩, ⟨2⟩, ⟨3⟩] ∧
    Relation.TransGen gears.Calls ⟨3⟩ ⟨3⟩ ∧ ¬ Relation.TransGen gears.Calls ⟨0⟩ ⟨0⟩ ∧
    Replaces gears [] .default ⟨1⟩ ⟨4⟩ ∧
    ∀ k, ¬ Relation.TransGen (Replaces gears [] .default) k k := by
  have hrec : gears.recursiveFunctions = [⟨1⟩, ⟨2⟩, ⟨3⟩] := by decide
  have hkey : ∀ k f, gears.functions.get? k = some f → f.id = k := by decide
  obtain ⟨hiff, hacyclic⟩ := recursion_exact gears
  refine ⟨hrec, ?_, ?_, ?_, hacyclic hkey [] .default⟩
  · exact (hiff ⟨3⟩ _ rfl).mp (by rw [hrec]; decide)
  · exact fun h => absurd ((hiff ⟨0⟩ _ rfl).mpr h) (by rw [hrec]; decide)
  · rw [Replaces]
    decide

end Candidates

end SiteFusion
