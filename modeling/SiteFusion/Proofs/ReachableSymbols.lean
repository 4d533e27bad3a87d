import SiteFusion.Proofs.RelocatedGlobals
import SiteFusion.Proofs.MergedFunctions

namespace SiteFusion

open List Option

/-- A value that points to a function points to one of some functions. -/
def Value.Within (live : FuncId → Prop) (v : Value) : Prop := ∀ f, v = .func f → live f

def Instruction.Within (live : FuncId → Prop) (i : Instruction) : Prop := ∀ c ∈ i.function?, live c

def Outcome.Within (live : FuncId → Prop) : Outcome → Prop
  | .plain x memory => (∀ v ∈ x, v.Within live) ∧ ∀ v ∈ memory, v.Within live
  | .call callee args => live callee ∧ ∀ v ∈ args, v.Within live

structure Frame.Within (live : FuncId → Prop) (a : Frame) : Prop where
  rest : ∀ i ∈ a.rest, i.Within live
  regs : ∀ r v, a.regs r = some v → v.Within live

/-- A program runs one of some functions and can only call others of them. -/
structure Config.Within (live : FuncId → Prop) (c : Config) : Prop where
  function : live c.function
  frame : c.frame.Within live
  callers : ∀ w ∈ c.callers, live w.function ∧ w.frame.Within live
  memory : ∀ v ∈ c.memory, v.Within live

def Program.ClosedAt (E : Program) (live : FuncId → Prop) : Prop :=
  ∀ f p, live f → E f = some p → ∀ k c, p.code k = some c → ∀ i ∈ c.body, i.Within live

def Program.only (E : Program) (live : FuncId → Prop) [DecidablePred live] : Program := fun f =>
  if live f then E f else none

section Within

variable {live : FuncId → Prop} {ρ : Regs} {memory memory' : Array Value} {v : Value}
  {cells : Table GlobalId Nat} {i : Instruction} {c d : Config} {E : Program} {n : Nat}

theorem Value.within_of_isData (h : v.isData = true) : v.Within live := by
  rintro f rfl
  cases h

theorem Value.within_ofConst (c : Const) : (Value.ofConst c).Within live :=
  within_of_isData (by cases c <;> rfl)

theorem Regs.within_value (hρ : ∀ r v, ρ r = some v → v.Within live) {o : Operand}
    (h : ρ.value o = some v) : v.Within live := by
  cases o with
  | const c =>
    cases h
    exact Value.within_ofConst c
  | reg r => exact hρ r v h

theorem Regs.within_put (hρ : ∀ r v, ρ r = some v → v.Within live) {dest : Option Reg}
    {x : Option Value} (hx : ∀ v ∈ x, v.Within live) :
    ∀ r v, ρ.put dest x r = some v → v.Within live := by
  intro r v hv
  by_cases hd : dest = some r
  · rw [hd, Regs.put_self] at hv
    cases x with
    | none =>
      cases hv
      exact Value.within_of_isData rfl
    | some x =>
      cases hv
      exact hx _ rfl
  · rw [Regs.put_of_ne hd] at hv
    exact hρ r v hv

theorem Regs.within_bind {ds : List Reg} {vs : List Value} (hvs : ∀ v ∈ vs, v.Within live)
    (hρ : ∀ r v, ρ r = some v → v.Within live) :
    ∀ r v, Regs.bind ds vs ρ r = some v → v.Within live := by
  induction ds generalizing vs ρ with
  | nil => exact hρ
  | cons d ds ih =>
    cases vs with
    | nil => exact hρ
    | cons x vs =>
      refine ih (fun v hv => hvs v (mem_cons_of_mem _ hv)) (Regs.within_put hρ fun v hv => ?_)
      cases hv
      exact hvs _ mem_cons_self

theorem Regs.within_mapM (hρ : ∀ r v, ρ r = some v → v.Within live) {os : List Operand}
    {vs : List Value} (h : os.mapM ρ.value = some vs) : ∀ v ∈ vs, v.Within live := by
  induction os generalizing vs with
  | nil =>
    cases h
    simp
  | cons o os ih =>
    rw [mapM_cons] at h
    obtain ⟨v, hv, h⟩ := bind_eq_some_iff.mp h
    obtain ⟨vs', hvs', h⟩ := bind_eq_some_iff.mp h
    cases h
    intro x hx
    rcases mem_cons.mp hx with rfl | hx
    · exact Regs.within_value hρ hv
    · exact ih hvs' x hx

theorem Regs.within_incomings (hρ : ∀ r v, ρ r = some v → v.Within live) {s : BlockId}
    {qs : List Phi} {vs : List Value} (h : incomings ρ s qs = some vs) :
    ∀ v ∈ vs, v.Within live := by
  induction qs generalizing vs with
  | nil =>
    cases h
    simp
  | cons q qs ih =>
    obtain ⟨v, ws, hv, hws, rfl⟩ := incomings_cons.mp h
    obtain ⟨o, -, hv⟩ := bind_eq_some_iff.mp hv
    intro x hx
    rcases mem_cons.mp hx with rfl | hx
    · exact Regs.within_value hρ hv
    · exact ih hws x hx

theorem within_loaded (hm : ∀ v ∈ memory, v.Within live) (c : Nat) :
    (Machine.loaded memory c).Within live := by
  unfold Machine.loaded
  cases hc : memory[c]? with
  | none => exact Value.within_of_isData rfl
  | some v => exact hm v (Array.mem_of_getElem? hc)

theorem within_setIfInBounds (hm : ∀ v ∈ memory, v.Within live) (hv : v.Within live) (c : Nat) :
    ∀ x ∈ memory.setIfInBounds c v, x.Within live := by
  intro x hx
  rcases Array.mem_or_eq_of_mem_setIfInBounds hx with hx | rfl
  · exact hm x hx
  · exact hv

theorem within_push (hm : ∀ v ∈ memory, v.Within live) (hv : v.Within live) :
    ∀ x ∈ memory.push v, x.Within live := by
  intro x hx
  rcases Array.mem_push.mp hx with hx | rfl
  · exact hm x hx
  · exact hv

theorem act_within (hi : i.Within live) (hρ : ∀ r v, ρ r = some v → v.Within live)
    (hm : ∀ v ∈ memory, v.Within live) {o : Outcome} (h : act cells ρ memory i = some o) :
    o.Within live := by
  have hvalue : ∀ {v : Value}, v.Within live → ∀ w ∈ some v, w.Within live := by
    rintro v hv w ⟨⟩
    exact hv
  have hnone : ∀ w ∈ (none : Option Value), w.Within live := by simp
  cases i with
  | const d c =>
    cases h
    exact ⟨hvalue (Value.within_ofConst c), hm⟩
  | copy d s =>
    obtain ⟨v, hv, h⟩ := bind_eq_some_iff.mp h
    cases h
    exact ⟨hvalue (Regs.within_value hρ hv), hm⟩
  | binary d op l r =>
    obtain ⟨x, -, h⟩ := bind_eq_some_iff.mp h
    obtain ⟨y, -, h⟩ := bind_eq_some_iff.mp h
    obtain ⟨v, hv, h⟩ := bind_eq_some_iff.mp h
    cases h
    exact ⟨hvalue (Value.within_of_isData (isData_of_binary hv)), hm⟩
  | unary d op x =>
    obtain ⟨x, -, h⟩ := bind_eq_some_iff.mp h
    obtain ⟨v, hv, h⟩ := bind_eq_some_iff.mp h
    cases h
    exact ⟨hvalue (Value.within_of_isData (isData_of_unary hv)), hm⟩
  | compare d op l r =>
    obtain ⟨x, -, h⟩ := bind_eq_some_iff.mp h
    obtain ⟨y, -, h⟩ := bind_eq_some_iff.mp h
    obtain ⟨b, -, h⟩ := bind_eq_some_iff.mp h
    cases h
    exact ⟨hvalue (Value.within_of_isData rfl), hm⟩
  | select d c a b =>
    obtain ⟨x, -, h⟩ := bind_eq_some_iff.mp h
    obtain ⟨t, -, h⟩ := bind_eq_some_iff.mp h
    obtain ⟨v, hv, h⟩ := bind_eq_some_iff.mp h
    cases h
    exact ⟨hvalue (Regs.within_value hρ hv), hm⟩
  | alloca d ty =>
    cases h
    exact ⟨hvalue (by rintro f ⟨⟩), within_push hm (Value.within_ofConst _)⟩
  | load d p t =>
    obtain ⟨x, -, h⟩ := bind_eq_some_iff.mp h
    obtain ⟨c, -, h⟩ := bind_eq_some_iff.mp h
    cases h
    exact ⟨hvalue (within_loaded hm c), hm⟩
  | store p v =>
    obtain ⟨x, -, h⟩ := bind_eq_some_iff.mp h
    obtain ⟨c, -, h⟩ := bind_eq_some_iff.mp h
    obtain ⟨w, hw, h⟩ := bind_eq_some_iff.mp h
    cases h
    exact ⟨hnone, within_setIfInBounds hm (Regs.within_value hρ hw) c⟩
  | loadGlobal d g t =>
    obtain ⟨c, -, h⟩ := bind_eq_some_iff.mp h
    cases h
    exact ⟨hvalue (within_loaded hm c), hm⟩
  | storeGlobal g v =>
    obtain ⟨c, -, h⟩ := bind_eq_some_iff.mp h
    obtain ⟨w, hw, h⟩ := bind_eq_some_iff.mp h
    cases h
    exact ⟨hnone, within_setIfInBounds hm (Regs.within_value hρ hw) c⟩
  | call d callee args =>
    obtain ⟨vs, hvs, h⟩ := bind_eq_some_iff.mp h
    cases h
    exact ⟨hi callee rfl, Regs.within_mapM hρ hvs⟩
  | callIndirect d target args =>
    obtain ⟨t, ht, h⟩ := bind_eq_some_iff.mp h
    cases t with
    | func callee =>
      obtain ⟨vs, hvs, h⟩ := bind_eq_some_iff.mp h
      cases h
      exact ⟨Regs.within_value hρ ht callee rfl, Regs.within_mapM hρ hvs⟩
    | _ => cases h
  | inlineAsm _ _ _ => cases h
  | functionRef d callee =>
    cases h
    refine ⟨hvalue ?_, hm⟩
    rintro f ⟨⟩
    exact hi callee rfl
  | marker =>
    cases h
    exact ⟨hnone, hm⟩

theorem leads_within (hρ : ∀ r v, ρ r = some v → v.Within live) {t : Terminator}
    {x : Option Value} (h : leads ρ t = some (.back x)) : ∀ v ∈ x, v.Within live := by
  rintro v ⟨⟩
  cases t with
  | ret o =>
    cases o with
    | none => cases h
    | some o =>
      obtain ⟨w, hw, h⟩ := bind_eq_some_iff.mp h
      cases h
      exact Regs.within_value hρ hw
  | branch t => cases h
  | unreachable => cases h
  | condBranch c t e =>
    obtain ⟨w, -, h⟩ := bind_eq_some_iff.mp h
    obtain ⟨b, -, h⟩ := bind_eq_some_iff.mp h
    cases h
  | switch c cs e =>
    obtain ⟨w, -, h⟩ := bind_eq_some_iff.mp h
    obtain ⟨b, -, h⟩ := bind_eq_some_iff.mp h
    cases h

theorem Program.ClosedAt.start (hE : E.ClosedAt live) {f : FuncId} {p : Proc} (hf : live f)
    (hp : E f = some p) {args : List Value} (hargs : ∀ v ∈ args, v.Within live) {a : Frame}
    (ha : p.start args = some a) : a.Within live := by
  obtain ⟨c, hc, -, rfl⟩ := Proc.start_eq_some.mp ha
  exact ⟨hE f p hf hp _ c hc, Regs.within_bind hargs fun _ _ h => by cases h⟩

variable [DecidablePred live]

theorem Program.only_eq_some {f : FuncId} {p : Proc} :
    E.only live f = some p ↔ live f ∧ E f = some p := by
  unfold Program.only
  split
  · next h => exact ⟨fun hp => ⟨h, hp⟩, And.right⟩
  · next h => exact ⟨fun hp => (by cases hp), fun hp => absurd hp.1 h⟩

theorem Config.Within.moves (hE : E.ClosedAt live) (hc : c.Within live)
    (h : Moves cells E c n d) : Moves cells (E.only live) c n d ∧ d.Within live := by
  cases h with
  | act h =>
    obtain ⟨hv, hm⟩ := act_within (hc.frame.rest _ mem_cons_self) hc.frame.regs hc.memory h
    exact ⟨.act h, hc.function, ⟨fun i hi => hc.frame.rest i (mem_cons_of_mem _ hi),
      Regs.within_put hc.frame.regs hv⟩, hc.callers, hm⟩
  | call h hq hn hd hs =>
    obtain ⟨hlive, hargs⟩ := act_within (hc.frame.rest _ mem_cons_self) hc.frame.regs hc.memory h
    refine ⟨.call h (Program.only_eq_some.mpr ⟨hlive, hq⟩) hn hd hs, hlive,
      hE.start hlive hq hargs hs, fun w hw => ?_, hc.memory⟩
    rcases mem_cons.mp hw with rfl | hw
    · exact ⟨hc.function, fun i hi => hc.frame.rest i (mem_cons_of_mem _ hi), hc.frame.regs⟩
    · exact hc.callers w hw
  | @goto f p l t ρ callers memory l' b vs hf h hb hvs =>
    exact ⟨.goto (Program.only_eq_some.mpr ⟨hc.function, hf⟩) h hb hvs, hc.function,
      ⟨hE f p hc.function hf l' b hb,
        Regs.within_bind (Regs.within_incomings hc.frame.regs hvs) hc.frame.regs⟩,
      hc.callers, hc.memory⟩
  | @back f l t ρ v w callers memory h =>
    obtain ⟨hlive, hw⟩ := hc.callers w mem_cons_self
    exact ⟨.back h, hlive, ⟨hw.rest, Regs.within_put hw.regs (leads_within hc.frame.regs h)⟩,
      fun w hw => hc.callers w (mem_cons_of_mem _ hw), hc.memory⟩

theorem Config.Within.runs (hE : E.ClosedAt live) (hc : c.Within live) (h : Runs cells E c n d) :
    Runs cells (E.only live) c n d := by
  induction h with
  | refl c => exact .refl c
  | head h _ ih =>
    obtain ⟨hmove, hc'⟩ := hc.moves hE h
    exact .head hmove (ih hc')

theorem Program.ClosedAt.yields (hE : E.ClosedAt live) {f : FuncId} (hf : live f)
    {args : List Value} (hargs : ∀ v ∈ args, v.Within live) (hm : ∀ v ∈ memory, v.Within live)
    {x : Option Value} (h : Yields cells E memory f args x memory' n) :
    Yields cells (E.only live) memory f args x memory' n := by
  obtain ⟨p, a, e, hp, hn, ha, hruns, hends⟩ := h
  have hstart : Config.Within live ⟨f, a, [], memory⟩ :=
    ⟨hf, hE.start hf hp hargs ha, by simp, hm⟩
  exact ⟨p, a, e, Program.only_eq_some.mpr ⟨hf, hp⟩, hn, ha, hstart.runs hE hruns, hends⟩

end Within

namespace Globals

variable {m : Module} {k : FuncId} {g : GlobalId}

/-- References lead from a function that is not local to another one. -/
def Reached (m : Module) (k : FuncId) : Prop :=
  ∃ root f, m.function? root = some f ∧ f.attributes.linkage.isLocal = false ∧
    Relation.ReflTransGen (Refers m) root k

/-- A function of a module loads or stores a global variable. -/
def Names (m : Module) (g : GlobalId) : Prop :=
  ∃ k f, m.function? k = some f ∧ ∃ o ∈ f.instructions, o.kind.global? = some g

def pruned (m : Module) : Module :=
  { m with
    functions := m.functions.filter fun f _ => (liveFunctions m).contains f
    globals := m.globals.filter fun g _ => (liveGlobals m).contains g }

theorem prune_eq (m : Module) : ∃ r, prune m = .ok (pruned m, r) := by
  have hsame : ∀ {κ ν : Type} [DecidableEq κ] {t : Table κ ν} {l : List κ},
      (t.keys.filter fun k => !l.contains k).isEmpty = true →
      (t.filter fun k _ => l.contains k) = t := by
    intro κ ν _ t l h
    have hall : ∀ e ∈ t.entries, l.contains e.1 = true := by
      intro e he
      by_contra hn
      have hmem : e.1 ∈ t.keys.filter fun k => !l.contains k :=
        mem_filter.mpr ⟨List.mem_map_of_mem he, by simpa using hn⟩
      rw [List.isEmpty_iff.mp h] at hmem
      cases hmem
    obtain ⟨entries, nodup⟩ := t
    simp only [Table.filter, Table.mk.injEq]
    exact filter_eq_self.mpr hall
  unfold prune
  dsimp only
  split
  · next h =>
    obtain ⟨hf, hg⟩ := Bool.and_eq_true_iff.mp h
    exact ⟨_, by rw [pruned, hsame hf, hsame hg]⟩
  · exact ⟨_, rfl⟩

theorem mem_liveFunctions_iff (hf : ∀ k f, m.function? k = some f → f.id = k) :
    k ∈ liveFunctions m ↔ Reached m k := by
  rw [mem_liveFunctions]
  constructor
  · rintro ⟨f, hmem, hl, hr⟩
    obtain ⟨root, hroot⟩ := Table.mem_values_iff.mp hmem
    exact ⟨root, f, hroot, hl, hf root f hroot ▸ hr⟩
  · rintro ⟨root, f, hroot, hl, hr⟩
    exact ⟨f, Table.mem_values_iff.mpr ⟨root, hroot⟩, hl, (hf root f hroot).symm ▸ hr⟩

theorem function?_pruned {f : Function} :
    (pruned m).function? k = some f ↔ m.function? k = some f ∧ k ∈ liveFunctions m := by
  rw [Module.function?, pruned, Table.get?_filter, filter_eq_some_iff, contains_iff_mem]
  rfl

theorem get?_globals_pruned {v : Global} :
    (pruned m).globals.get? g = some v ↔ m.globals.get? g = some v ∧ g ∈ liveGlobals m := by
  rw [pruned, Table.get?_filter, filter_eq_some_iff, contains_iff_mem]

theorem mem_liveGlobals (hg : m.KeyedGlobals) {v : Global} (hv : m.globals.get? g = some v) :
    g ∈ liveGlobals m ↔ v.linkage.isLocal = false ∨ Names (pruned m) g := by
  rw [liveGlobals, mem_append]
  refine or_congr ⟨fun h => ?_, fun h => ?_⟩ ⟨fun h => ?_, ?_⟩
  · obtain ⟨w, hw, rfl⟩ := List.mem_map.mp h
    obtain ⟨hw, hl⟩ := mem_filter.mp hw
    obtain ⟨k, hk⟩ := Table.mem_values_iff.mp hw
    rw [hg k w hk, hk] at hv
    cases hv
    simpa using hl
  · exact List.mem_map.mpr ⟨v, mem_filter.mpr ⟨Table.mem_values_iff.mpr ⟨g, hv⟩, by simp [h]⟩,
      hg g v hv⟩
  · obtain ⟨k, hk, h⟩ := mem_flatMap.mp h
    cases hf : m.function? k with
    | none =>
      rw [hf] at h
      cases h
    | some f =>
      rw [hf] at h
      obtain ⟨o, ho, hog⟩ := mem_filterMap.mp h
      exact ⟨k, f, function?_pruned.mpr ⟨hf, hk⟩, o, ho, hog⟩
  · rintro ⟨k, f, hf, o, ho, hog⟩
    obtain ⟨hf, hk⟩ := function?_pruned.mp hf
    refine mem_flatMap.mpr ⟨k, hk, ?_⟩
    rw [hf]
    exact mem_filterMap.mpr ⟨o, ho, hog⟩

theorem closedAt_liveFunctions (hf : ∀ k f, m.function? k = some f → f.id = k) :
    m.program.ClosedAt (· ∈ liveFunctions m) := by
  intro k p hk hp l c hc i hi callee hcallee
  obtain ⟨f, hf', -, rfl⟩ := Module.program_eq_some.mp hp
  obtain ⟨b, hb, rfl⟩ := Function.code_eq_some.mp hc
  obtain ⟨o, ho, rfl⟩ := List.mem_map.mp hi
  refine (liveFunctions_closed hf).2 k hk f hf' callee (mem_filterMap.mpr ⟨o, ?_, hcallee⟩)
  exact Function.mem_instructions.mpr ⟨l, b, hb, ho⟩

theorem relocates_pruned (hg : m.KeyedGlobals) :
    m.Relocates (fun _ => none) (pruned m) where
  key := hg
  key' k g hk := hg k g (get?_globals_pruned.mp hk).1
  sublist := List.filter_sublist.map _
  initial k g g' hk hk' := by
    cases hk.symm.trans (get?_globals_pruned.mp hk').1
    rfl
  fixed k c hc := by cases hc

theorem sound_pruned (hg : m.KeyedGlobals) :
    (relocation (fun _ => none) (m.program.only (· ∈ liveFunctions m)) m (pruned m) False).Sound where
  faithful := Translation.faithful_relocation
  finds {k p} hp := by
    have hp : m.program.only (· ∈ liveFunctions m) k = some p := hp
    obtain ⟨hlive, hp'⟩ := Program.only_eq_some.mp hp
    obtain ⟨f, hf, hd, rfl⟩ := Module.program_eq_some.mp hp'
    have htarget : (pruned m).program k = some f.proc :=
      Module.program_eq_some.mpr ⟨f, function?_pruned.mpr ⟨hf, hlive⟩, hd, rfl⟩
    refine ⟨.all, f.proc, f.proc, hp, htarget, Translation.recodes_bodies rfl rfl rfl
      fun l c hc => ⟨c.body, hc, .same Translation.faithful_relocation rfl rfl fun i hi =>
        ⟨fun g hi' => ?_, fun _ _ _ _ => trivial, fun _ _ _ _ h => h, fun _ _ _ h => by cases h⟩⟩⟩
    refine Translation.places_relocation (relocates_pruned hg) rfl fun hc' => ?_
    obtain ⟨v, hv⟩ := Table.contains_iff.mp hc'
    obtain ⟨b, hb, rfl⟩ := Function.code_eq_some.mp hc
    obtain ⟨o, ho, rfl⟩ := List.mem_map.mp hi
    have hnames : Names (pruned m) g := ⟨k, f, function?_pruned.mpr ⟨hf, hlive⟩, o,
      Function.mem_instructions.mpr ⟨l, b, hb, ho⟩, hi'⟩
    exact Table.contains_iff.mpr
      ⟨v, get?_globals_pruned.mpr ⟨hv, (mem_liveGlobals hg hv).mpr (.inr hnames)⟩⟩

/-- Pruning keeps what can be got at from outside, in its order, and nothing else. Calls from outside
give the same results after the same number of steps, and leave the same values behind. -/
theorem prune_keeps_reached (hf : ∀ k f, m.function? k = some f → f.id = k)
    (hg : m.KeyedGlobals) :
    ∃ m' r, prune m = .ok (m', r) ∧
      m'.functions.entries.Sublist m.functions.entries ∧
      (∀ e, e ∈ m'.functions.entries ↔ e ∈ m.functions.entries ∧ Reached m e.1) ∧
      m'.globals.entries.Sublist m.globals.entries ∧
      (∀ e, e ∈ m'.globals.entries ↔ e ∈ m.globals.entries ∧
        (e.2.linkage.isLocal = false ∨ Names m' e.1)) ∧
      ∀ key f, m.function? key = some f → f.attributes.linkage.isLocal = false →
        ∀ budget args r v, (∀ c, .ptr c ∉ args) → (∀ c, .func c ∉ args) →
          (∀ c, v ≠ some (.ptr c)) → (Machine.ofModule m budget).call key args = (r, .ok v) →
          ∃ r', (Machine.ofModule m' budget).call key args = (r', .ok v) ∧ r'.budget = r.budget ∧
            ∀ g x, m'.globals.contains g = true → r.valueOf g = some x → (∀ c, x ≠ .ptr c) →
              r'.valueOf g = some x := by
  obtain ⟨r, hr⟩ := prune_eq m
  refine ⟨_, r, hr, filter_sublist, fun e => ?_, filter_sublist, fun e => ?_, ?_⟩
  · rw [← Table.get?_eq_some_iff, ← Table.get?_eq_some_iff, ← mem_liveFunctions_iff hf]
    exact function?_pruned
  · rw [← Table.get?_eq_some_iff, ← Table.get?_eq_some_iff, get?_globals_pruned]
    exact and_congr_right fun hv => mem_liveGlobals hg hv
  · intro key f hkey hl budget args r v hargs hfuncs hv hcall
    have hlive : key ∈ liveFunctions m := (mem_liveFunctions_iff hf).mpr ⟨key, f, hkey, hl, .refl⟩
    have hmemory : ∀ x ∈ (Machine.ofModule m 0).memory, x.Within (· ∈ liveFunctions m) :=
      fun x hx f hxf => absurd (hxf ▸ hx)
        (Duplicates.func_not_mem_placeGlobals (Array.not_mem_empty _))
    obtain ⟨r', hcall', -, hbudget, hvalues⟩ := Translation.call_relocation (relocates_pruned hg)
      (sound_pruned hg) (fun memory n h => (closedAt_liveFunctions hf).yields hlive
        (fun x hx f hxf => absurd (hxf ▸ hx) (hfuncs f)) hmemory h) hargs hv hcall
    exact ⟨r', hcall', hbudget.resolve_left id, fun g x hc => hvalues g x hc (by simp)⟩

/-- A public function that only holds the address of another one, and two functions that call each
other and that nothing else calls. The first of the variables is theirs. -/
def harbour : Module where
  name := "harbour"
  functions := .ofList [
    (⟨0⟩, { Function.create ⟨0⟩ "drift" [] .i64 with
      graph := ⟨.ofList [(⟨0⟩, ⟨⟨0⟩, none, [], [.plain ⟨0⟩ (.storeGlobal ⟨0⟩ (.const (.i64 1))),
          .plain ⟨1⟩ (.call (some ⟨0⟩) ⟨2⟩ [])], .plain ⟨2⟩ (.ret (some (.reg ⟨0⟩)))⟩)], ⟨0⟩, 1, 3⟩
      nextReg := 1 }),
    (⟨1⟩, { Function.create ⟨1⟩ "berth" [("n", .i64)] .i64 with
      graph := ⟨.ofList [(⟨0⟩, ⟨⟨0⟩, none, [], [.plain ⟨0⟩ (.loadGlobal ⟨1⟩ ⟨2⟩ .i64),
          .plain ⟨1⟩ (.binary ⟨2⟩ .add (.reg ⟨0⟩) (.reg ⟨1⟩))],
        .plain ⟨2⟩ (.ret (some (.reg ⟨2⟩)))⟩)], ⟨0⟩, 1, 3⟩
      nextReg := 3 }),
    (⟨2⟩, { Function.create ⟨2⟩ "eddy" [] .i64 with
      graph := ⟨.ofList [(⟨0⟩, ⟨⟨0⟩, none, [], [.plain ⟨0⟩ (.call (some ⟨0⟩) ⟨0⟩ [])],
        .plain ⟨1⟩ (.ret (some (.reg ⟨0⟩)))⟩)], ⟨0⟩, 1, 2⟩
      nextReg := 1 }),
    (⟨3⟩, { Function.create ⟨3⟩ "enter" [("n", .i64)] .i64 with
      attributes := { Attributes.default with linkage := .public_ }
      graph := ⟨.ofList [(⟨0⟩, ⟨⟨0⟩, none, [], [.plain ⟨0⟩ (.functionRef ⟨1⟩ ⟨1⟩),
          .plain ⟨1⟩ (.callIndirect (some ⟨2⟩) (.reg ⟨1⟩) [.reg ⟨0⟩]),
          .plain ⟨2⟩ (.storeGlobal ⟨1⟩ (.reg ⟨2⟩))], .plain ⟨3⟩ (.ret (some (.reg ⟨2⟩)))⟩)],
        ⟨0⟩, 1, 4⟩
      nextReg := 3 })]
  globals := .ofList [(⟨0⟩, ⟨⟨0⟩, "wake", .i64, none, true, .internal⟩),
    (⟨1⟩, ⟨⟨1⟩, "log", .i64, none, true, .public_⟩),
    (⟨2⟩, ⟨⟨2⟩, "depth", .i64, some (.i64 7), true, .internal⟩)]
  nextFunction := 4
  nextGlobal := 3

theorem harbour_keeps_reached : ∃ m' r, prune harbour = .ok (m', r) ∧
    m'.functions.keys = [⟨1⟩, ⟨3⟩] ∧ m'.globals.keys = [⟨1⟩, ⟨2⟩] ∧ ¬ Reached harbour ⟨0⟩ ∧
    ∃ r', (Machine.ofModule m' 8).call ⟨3⟩ [.i64 4] = (r', .ok (some (.i64 11))) ∧
      r'.budget = 1 ∧ r'.valueOf ⟨1⟩ = some (.i64 11) := by
  have hf : ∀ k f, harbour.functions.get? k = some f → f.id = k := by decide
  have hg : harbour.KeyedGlobals := by decide
  have hkeys : (prune harbour).toOption.map (fun x => (x.1.functions.keys, x.1.globals.keys)) =
    some ([⟨1⟩, ⟨3⟩], [⟨1⟩, ⟨2⟩]) := by cbv
  have hrun : ((Machine.ofModule harbour 8).call ⟨3⟩ [.i64 4]).2 = .ok (some (.i64 11)) := by
    decide +kernel
  have hbudget : ((Machine.ofModule harbour 8).call ⟨3⟩ [.i64 4]).1.budget = 1 := by decide +kernel
  have hlog : ((Machine.ofModule harbour 8).call ⟨3⟩ [.i64 4]).1.valueOf ⟨1⟩ = some (.i64 11) := by
    decide +kernel
  obtain ⟨m', r, hr, -, hfunctions, -, -, hcall⟩ := prune_keeps_reached hf hg
  rw [hr] at hkeys
  obtain ⟨hkeys, hkeys'⟩ := Prod.mk.inj (Option.some.inj hkeys)
  obtain ⟨r', hr', hb, hvalues⟩ := hcall ⟨3⟩ _ rfl rfl 8 [.i64 4] _ (some (.i64 11)) (by simp)
    (by simp) (by simp) (Prod.ext rfl hrun)
  refine ⟨m', r, hr, hkeys, hkeys', fun hreached => ?_, r', hr', hb.trans hbudget,
    hvalues ⟨1⟩ _ ?_ hlog (by simp)⟩
  · have hmem := (hfunctions _).mpr ⟨Table.get?_eq_some_iff.mp rfl, hreached⟩
    have hkey : ⟨0⟩ ∈ m'.functions.keys := List.mem_map_of_mem hmem
    rw [hkeys] at hkey
    exact absurd hkey (by decide)
  · exact Table.contains_iff.mpr (Table.mem_keys_iff.mp (hkeys' ▸ by decide))

end Globals

end SiteFusion
