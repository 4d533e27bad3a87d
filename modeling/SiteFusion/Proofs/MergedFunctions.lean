import SiteFusion.Proofs.CanonicalFunctions
import SiteFusion.Proofs.SoundModules
import SiteFusion.Proofs.ValidInlining

namespace SiteFusion

open List Option

namespace Duplicates

section Groups

variable {κ ι : Type} [DecidableEq κ]

theorem key_addMember {members : List (Member κ ι)} {x : Member κ ι} (hx : x ∈ members)
    {gs : List (κ × List ι)}
    (h : ∀ e ∈ gs, ∀ a ∈ e.2, ∃ y ∈ members, y.id = a ∧ y.key = e.1) :
    ∀ e ∈ addMember gs x, ∀ a ∈ e.2, ∃ y ∈ members, y.id = a ∧ y.key = e.1 := by
  induction gs with
  | nil =>
    intro e he a ha
    cases mem_singleton.mp he
    exact ⟨x, hx, (mem_singleton.mp ha).symm, rfl⟩
  | cons e gs ih =>
    obtain ⟨k, ids⟩ := e
    obtain ⟨hids, htail⟩ := forall_mem_cons.mp h
    unfold addMember
    split
    · next hk =>
      refine forall_mem_cons.mpr ⟨fun a ha => ?_, htail⟩
      have ha' : a = x.id ∨ a ∈ ids := by
        dsimp only at ha
        split at ha
        · exact (mem_append.mp ha).symm.imp_left mem_singleton.mp
        · exact mem_cons.mp ha
      rcases ha' with rfl | ha'
      · exact ⟨x, hx, rfl, hk.symm⟩
      · exact hids a ha'
    · exact forall_mem_cons.mpr ⟨hids, ih htail⟩

theorem exists_key_of_mem_groups {members : List (Member κ ι)} {ids : List ι}
    (h : ids ∈ groups members) :
    ∃ key, ∀ a ∈ ids, ∃ x ∈ members, x.id = a ∧ x.key = key := by
  have hfold : ∀ (l : List (Member κ ι)) (gs : List (κ × List ι)), l ⊆ members →
      (∀ e ∈ gs, ∀ a ∈ e.2, ∃ y ∈ members, y.id = a ∧ y.key = e.1) →
      ∀ e ∈ l.foldl addMember gs, ∀ a ∈ e.2, ∃ y ∈ members, y.id = a ∧ y.key = e.1 := by
    intro l
    induction l with
    | nil => exact fun gs _ h => h
    | cons x l ih =>
      intro gs hl h
      exact ih (addMember gs x) (fun y hy => hl (mem_cons_of_mem _ hy))
        (key_addMember (hl mem_cons_self) h)
  obtain ⟨e, he, rfl⟩ := List.mem_map.mp h
  exact ⟨e.1, hfold members [] (List.Subset.refl _) (fun e he => absurd he not_mem_nil) e he⟩

variable [DecidableEq ι] {isLocal : ι → Edit Bool}

theorem exists_replaceIn (leader : ι) {ids : List ι} (t : Table ι ι)
    (h : ∀ a ∈ ids, ∃ l, isLocal a = .ok l) : ∃ t', replaceIn isLocal leader ids t = .ok t' := by
  induction ids generalizing t with
  | nil => exact ⟨t, rfl⟩
  | cons a ids ih =>
    obtain ⟨l, hl⟩ := h a mem_cons_self
    obtain ⟨t', ht'⟩ := ih (if l then t.insert a leader else t) fun a ha =>
      h a (mem_cons_of_mem _ ha)
    exact ⟨t', bind_eq_ok.mpr ⟨l, hl, ht'⟩⟩

theorem exists_replacements {gs : List (List ι)} (t : Table ι ι)
    (h : ∀ ids ∈ gs, ∀ a ∈ ids, ∃ l, isLocal a = .ok l) :
    ∃ t', replacements isLocal gs t = .ok t' := by
  induction gs generalizing t with
  | nil => exact ⟨t, rfl⟩
  | cons ids gs ih =>
    obtain ⟨hids, htail⟩ := forall_mem_cons.mp h
    cases ids with
    | nil => exact ih t htail
    | cons leader ids =>
      obtain ⟨t₁, h₁⟩ := exists_replaceIn leader t fun a ha => hids a (mem_cons_of_mem _ ha)
      obtain ⟨t', ht'⟩ := ih t₁ htail
      exact ⟨t', bind_eq_ok.mpr ⟨t₁, h₁, ht'⟩⟩

end Groups

variable {m m' : Module} {t : Table FuncId FuncId} {a b : FuncId}

theorem exists_of_functionMember (hk : m.Keyed) {x : Member (List Char) FuncId}
    (hx : x ∈ m.functionList.filterMap functionMember?) :
    ∃ f, m.function? x.id = some f ∧ f.isDeclaration = false ∧ x.key = canonicalForm f := by
  obtain ⟨f, hf, hx⟩ := mem_filterMap.mp hx
  obtain ⟨k, hk'⟩ := Table.mem_values_iff.mp hf
  unfold functionMember? at hx
  split at hx
  · next hopt =>
    cases hx
    refine ⟨f, hk.function k f hk' ▸ hk', ?_, rfl⟩
    simp only [Function.isOptimizable, Bool.and_eq_true, Bool.not_eq_true'] at hopt
    exact hopt.1
  · cases hx

/-- What is replaced has the text of what takes its place. -/
structure Merges (m : Module) (t : Table FuncId FuncId) : Prop where
  leader : ∀ {a b}, t.get? a = some b → t.get? b = none
  same : ∀ {a b}, t.get? a = some b → ∃ f g, m.function? a = some f ∧ m.function? b = some g ∧
    f.isDeclaration = false ∧ g.isDeclaration = false ∧ canonicalForm f = canonicalForm g

theorem merges_of_replacements (hk : m.Keyed)
    (ht : replacements (isLocalFunction m) (groups (m.functionList.filterMap functionMember?))
      .empty = .ok t) : Merges m t := by
  refine ⟨fun {a b} hab => ?_, fun {a b} hab => ?_⟩
  · exact (of_replacements (sublist_functionMembers hk.function) ht hab).2.2
  · obtain ⟨ids, hids, ha, -⟩ := (replacements_cases ht hab).resolve_left (by simp)
    obtain ⟨key, hkey⟩ := exists_key_of_mem_groups hids
    obtain ⟨x, hx, rfl, hxk⟩ := hkey a (mem_cons_of_mem _ ha)
    obtain ⟨y, hy, rfl, hyk⟩ := hkey b mem_cons_self
    obtain ⟨f, hf, hfd, hfk⟩ := exists_of_functionMember hk hx
    obtain ⟨g, hg, hgd, hgk⟩ := exists_of_functionMember hk hy
    exact ⟨f, g, hf, hg, hfd, hgd, hfk.symm.trans (hxk.trans (hyk.symm.trans hgk))⟩

theorem redirectFunction_eq (i : Instruction) :
    redirectFunction t i = i.redirect (substitute t) := by
  cases i <;> rfl

theorem proc_redirected (f : Function) :
    (f.mapInstructions (redirectFunction t)).proc = f.proc.redirect (substitute t) := by
  simp only [Function.proc, Function.mapInstructions, Graph.mapBlocks, Proc.redirect, Graph.block?,
    Table.get?_map, Option.map_map, funext redirectFunction_eq]
  congr 1
  funext k
  refine congrArg (Option.map · _) (funext fun b => ?_)
  simp [Block.code, Block.mapInstructions, Operation.map, Function.comp_def]

theorem isDeclaration_mapInstructions (f : Function) (h : Instruction → Instruction) :
    (f.mapInstructions h).isDeclaration = f.isDeclaration := by
  simp only [Function.isDeclaration, Function.mapInstructions, Graph.mapBlocks, Table.map,
    Table.mapWithKey, Table.isEmpty, isEmpty_map]
  rfl

theorem exists_mergeFunctions (hk : m.Keyed) : ∃ m' r t, mergeFunctions m = .ok (m', r) ∧
    Merges m t ∧ m'.globals = m.globals ∧
    (∀ k, (m'.function? k).isSome ↔ (m.function? k).isSome ∧ t.get? k = none) ∧
    ∀ k, t.get? k = none → m'.program k = (m.program k).map (Proc.redirect (substitute t)) := by
  have hreplace : ∃ t, replacements (isLocalFunction m)
      (groups (m.functionList.filterMap functionMember?)) .empty = .ok t := by
    refine exists_replacements .empty fun ids hids a ha => ?_
    obtain ⟨key, hkey⟩ := exists_key_of_mem_groups hids
    obtain ⟨x, hx, rfl, -⟩ := hkey a ha
    obtain ⟨f, hf, -⟩ := exists_of_functionMember hk hx
    exact ⟨_, by rw [isLocalFunction, hf]⟩
  obtain ⟨t, ht⟩ := hreplace
  have hm := merges_of_replacements hk ht
  by_cases hempty : t.isEmpty = true
  · have hnone : ∀ k, t.get? k = none := fun k => by
      rw [Table.get?, List.isEmpty_iff.mp hempty]
      rfl
    refine ⟨m, .unchanged, t, bind_eq_ok.mpr ⟨t, ht, if_pos hempty⟩, hm, rfl,
      fun k => (and_iff_left (hnone k)).symm, fun k _ => ?_⟩
    rw [show substitute t = id from funext fun a => by rw [substitute, hnone]; rfl,
      funext Proc.redirect_id]
    exact Option.map_id'.symm
  · refine ⟨_, _, t, bind_eq_ok.mpr ⟨t, ht, if_neg hempty⟩, hm, rfl, fun k => ?_,
      fun k hnone => ?_⟩
    · simp only [Module.function?, redirectFunctions, Module.mapInstructions, Table.get?_filter,
        Table.get?_map, Table.contains]
      cases m.functions.get? k <;> cases t.get? k <;> simp
    · simp only [Module.program, Module.function?, redirectFunctions, Module.mapInstructions,
        Table.get?_filter, Table.get?_map, Table.contains, hnone]
      cases m.functions.get? k with
      | none => rfl
      | some f =>
        simp only [map_some, filter_some, isSome_none, Bool.not_false, if_true,
          isDeclaration_mapInstructions, proc_redirected]
        split <;> rfl

/-- The module and what is left of it. Nothing is left out of a function. -/
def merging (m m' : Module) (t : Table FuncId FuncId) (cells : Table GlobalId Nat) : Translation :=
  ⟨m.program, m'.program, cells, cells, substitute t, .exact (substitute t), False⟩

theorem places_merging (cells : Table GlobalId Nat) (v : GlobalId) :
    (merging m m' t cells).Places v := fun c hc => ⟨c, hc, fun hm => hm.1 ▸ rfl⟩

/-- If the functions of a module have no floating point constants, those with the same text have
the same canonical form. -/
theorem canonical_eq_of_constants (hk : m.Keyed) (hc : ∀ c ∈ m.constants, c.isFloat = false)
    {f g : Function} (hf : m.function? a = some f) (hg : m.function? b = some g)
    (h : canonicalForm f = canonicalForm g) : canonical f = canonical g := by
  have hfloat : ∀ {k f}, m.function? k = some f → ∀ c ∈ f.constants, c.isFloat = false :=
    fun hf c hmem => hc c (mem_append_left _ (Table.mem_flatMap_values.mpr
      ⟨_, _, hf, hmem⟩))
  exact canonical_eq_of_form (hk.block a f hf) (hk.block b g hg) (hfloat hf) (hfloat hg) h

theorem sound_merging (hv : m.findings = []) (hk : m.Keyed)
    (hc : ∀ c ∈ m.constants, c.isFloat = false) (hm : Merges m t)
    (hp : ∀ k, t.get? k = none → m'.program k = (m.program k).map (Proc.redirect (substitute t)))
    (cells : Table GlobalId Nat) : (merging m m' t cells).Sound := by
  refine ⟨Pairing.faithful_exact, fun {k p} hkp => ?_⟩
  have hsource : m.program k = some p := hkp
  cases hget : t.get? k with
  | none =>
    have hsame : substitute t k = k := by rw [substitute, hget]; rfl
    refine ⟨.all, p, p.redirect (substitute t), hkp, ?_,
      .redirected Pairing.faithful_exact (places_merging cells) p⟩
    show m'.program (substitute t k) = _
    rw [hsame, hp k hget, hsource, map_some]
  | some l =>
    have hleader : substitute t k = l := by rw [substitute, hget]; rfl
    obtain ⟨f, g, hf, hg, hfd, hgd, hfg⟩ := hm.same hget
    obtain ⟨f', hf', -, rfl⟩ := Module.program_eq_some.mp hsource
    cases hf.symm.trans hf'
    refine ⟨coding f g, f.proc, g.proc.redirect (substitute t), hkp, ?_,
      recodes (Module.valid_of_findings hv hk hf hfd).connected
        (Module.valid_of_findings hv hk hg hgd).connected (hk.block k f hf) (hk.block l g hg)
        (canonical_eq_of_constants hk hc hf hg hfg) Pairing.faithful_exact (places_merging cells)⟩
    show m'.program (substitute t k) = _
    rw [hleader, hp l (hm.leader hget), Module.program_eq_some.mpr ⟨g, hg, hgd, rfl⟩, map_some]

end Duplicates

def Instruction.isCompare : Instruction → Bool
  | .compare _ _ _ _ => true
  | _ => false

namespace Machine

def State.ComparesFunctions (s : State) : Prop :=
  ∃ o rest t d op l r f g, s.current.task = .body (o :: rest) t ∧ o.kind = .compare d op l r ∧
    s.current.operand l = .ok (.func f) ∧ s.current.operand r = .ok (.func g)

variable {args : List Value} {callee : FuncId} {k : Nat} {machine : Machine} {s : State}

theorem Visits.steps {s' : State} (h : Visits machine callee args s)
    (hs : Steps machine.module machine.cells s k s') : Visits machine callee args s' := by
  induction hs with
  | refl => exact h
  | head hstep _ ih => exact ih (h.step hstep)

theorem Visits.not_comparesFunctions (hs : Visits machine callee args s)
    (hv : machine.module.findings = []) (hk : machine.module.Keyed)
    (h : ∀ key f, machine.module.function? key = some f → ∀ b ∈ f.graph.blockList,
      ∀ o ∈ b.instructions, o.kind.isCompare = false) : ¬ s.ComparesFunctions := by
  rintro ⟨o, rest, t, d, op, l, r, f, g, htask, hkind, -⟩
  obtain ⟨⟨key, hf⟩, -, b, _, hb, -, -, hdoing⟩ := (hs.onTrack hv hk).current
  rw [htask] at hdoing
  cases hdoing with
  | body hdone =>
    have hnot := h key _ hf b (Table.mem_values_iff.mpr ⟨_, hb⟩) o
      (hdone ▸ mem_append_right _ mem_cons_self)
    rw [hkind] at hnot
    cases hnot

theorem clear_of_visits {p : Proc} {fr : Frame}
    (h : ∀ s, Visits machine callee args s → ¬ s.ComparesFunctions)
    (hp : machine.module.program callee = some p) (hn : p.accepts args.length)
    (hs : p.start args = some fr) {d : Config}
    (hr : Runs machine.cells machine.module.program ⟨callee, fr, [], machine.memory⟩ k d)
    {i : Instruction} {rest : List Instruction} (hi : d.frame.rest = i :: rest) :
    d.frame.regs.Apart i := by
  obtain ⟨a, ha, hshow⟩ := invoke_of_start hp hn (show 0 < depthLimit by decide) hs
  obtain ⟨s, hs, hsteps⟩ := steps_of_runs (s := ⟨a, [], machine.memory⟩) ⟨hshow, .nil, rfl⟩ hr
  have hvisit := (Visits.start ha).steps hsteps
  rintro d' op l r rfl v w hv hw
  obtain ⟨ops, htask, hops⟩ := hs.current.task
  rw [hi] at hops
  obtain ⟨o, ops, rfl, hkind, -⟩ := map_eq_cons_iff.mp hops
  rw [← hs.current.regs, ← operand_toOption] at hv hw
  rw [Bool.eq_false_iff]
  intro hboth
  cases v <;> cases w <;> first
    | exact absurd hboth Bool.false_ne_true
    | exact h s hvisit ⟨o, ops, _, d', op, l, r, _, _, htask, hkind, eq_ok_of_toOption hv,
        eq_ok_of_toOption hw⟩

end Machine

namespace Duplicates

variable {m : Module} {args : List Value} {cells : Table GlobalId Nat} {f : Function}
  {memory : Array Value} {r : Machine} {v : Option Value}

theorem isDeclaration_canonical (hk : f.graph.Keyed) :
    (canonical f).isDeclaration = f.isDeclaration := by
  have hcodes := congrArg List.isEmpty (codes_canonical hk)
  rw [isEmpty_map, isEmpty_map] at hcodes
  exact congrArg (decide (f.kind = .externC) || ·) hcodes

theorem call_eq_of_form {machine : Machine} (hv : machine.module.findings = [])
    (hk : machine.module.Keyed) (hc : ∀ c ∈ machine.module.constants, c.isFloat = false)
    {a b : FuncId} {g : Function} (hf : machine.module.function? a = some f)
    (hg : machine.module.function? b = some g) (h : canonicalForm f = canonicalForm g)
    (hcall : machine.call a args = (r, .ok v)) : machine.call b args = (r, .ok v) := by
  have h := canonical_eq_of_constants hk hc hf hg h
  obtain ⟨m, cells, memory, budget⟩ := machine
  have hempty : substitute (.empty : Table FuncId FuncId) = id := rfl
  have hsound := sound_merging (m := m) hv hk hc (t := .empty) ⟨by simp, by simp⟩
    (fun k _ => by rw [hempty, funext Proc.redirect_id]; exact Option.map_id'.symm) cells
  have hfinds : ∀ p, m.program a = some p → ∃ n, (merging m m .empty cells).Finds n a b := by
    intro p hp
    obtain ⟨f', hf', hfd, rfl⟩ := Module.program_eq_some.mp hp
    cases hf.symm.trans hf'
    have hgd : g.isDeclaration = false := by
      rw [← isDeclaration_canonical (hk.block b g hg), ← h,
        isDeclaration_canonical (hk.block a f hf), hfd]
    have hrec := recodes (Module.valid_of_findings hv hk hf hfd).connected
      (Module.valid_of_findings hv hk hg hgd).connected (hk.block a f hf) (hk.block b g hg) h
      (T := merging m m .empty cells) Pairing.faithful_exact (places_merging cells)
    rw [show (merging m m .empty cells).rename = id from rfl, Proc.redirect_id] at hrec
    exact ⟨coding f g, f.proc, g.proc, hp, Module.program_eq_some.mpr ⟨g, hg, hgd, rfl⟩, hrec⟩
  have hcall' := hsound.call_exact rfl rfl rfl id hfinds (fun _ _ _ _ _ _ _ _ => .inl rfl) hcall
  obtain ⟨_, _, hr⟩ := Machine.exists_call_fst ⟨m, cells, memory, budget⟩ a args
  rw [hcall] at hr
  cases hr
  simpa only [merging, hempty, Value.redirect_id_eq, Array.map_id, List.map_id, Option.map_id,
    id] using hcall'

theorem func_not_mem_placeGlobals {f : FuncId} {gs : List Global} (h : .func f ∉ memory) :
    .func f ∉ (Machine.placeGlobals gs cells memory).2 := by
  induction gs generalizing cells memory with
  | nil => exact h
  | cons g gs ih =>
    refine ih fun hmem => ?_
    rcases Array.mem_push.mp hmem with hmem | hmem
    · exact h hmem
    · cases hc : g.initializer.getD g.ty.zero <;> rw [hc] at hmem <;> cases hmem

theorem redirect_eq_self {φ : FuncId → FuncId} {x : Value} (h : ∀ f, x ≠ .func f) :
    x.redirect φ = x := by
  cases x with
  | func f => exact absurd rfl (h f)
  | _ => rfl

theorem call_of_merges {m' : Module} {t : Table FuncId FuncId} (hv : m.findings = []) (hk : m.Keyed)
    (hc : ∀ c ∈ m.constants, c.isFloat = false) (hm : Merges m t) (hglobals : m'.globals = m.globals)
    (hp : ∀ k, t.get? k = none → m'.program k = (m.program k).map (Proc.redirect (substitute t)))
    {budget : Nat} (hmemory : ∀ f, .func f ∉ memory) {callee : FuncId}
    (hkeep : t.get? callee = none) (hargs : ∀ f, .func f ∉ args) (hfunc : ∀ f, v ≠ some (.func f))
    (hcall : Machine.call ⟨m, cells, memory, budget⟩ callee args = (r, .ok v))
    (hcompare : ∀ s, Machine.Visits ⟨m, cells, memory, budget⟩ callee args s →
      ¬ s.ComparesFunctions) :
    ∃ r', Machine.call ⟨m', cells, memory, budget⟩ callee args = (r', .ok v) ∧
      r'.budget = r.budget ∧ ∀ name x, r.global? name = some x → (∀ f, x ≠ .func f) →
        r'.global? name = some x := by
  have hsound := sound_merging hv hk hc hm hp cells
  have hsame : substitute t callee = callee := by rw [substitute, hkeep]; rfl
  have hfinds : ∀ p, (merging m m' t cells).source callee = some p →
      ∃ n, (merging m m' t cells).Finds n callee callee := by
    intro p hp
    have hfinds := hsound.finds hp
    rwa [show (merging m m' t cells).rename callee = callee from hsame] at hfinds
  have hcall' := hsound.call_exact rfl rfl rfl id hfinds
    (fun p fr hp hn hs k d hd => .inr fun i rest hi =>
      Machine.clear_of_visits hcompare hp hn hs hd hi) hcall
  have hmap : memory.map (Value.redirect (substitute t)) = memory :=
    (Array.map_congr_left fun x hx => redirect_eq_self fun f hf => hmemory f (hf ▸ hx)).trans
      (Array.map_id' memory)
  have hvs : args.map (Value.redirect (substitute t)) = args := Renaming.map_eq_self fun x hx =>
    redirect_eq_self fun f hf => hargs f (hf ▸ hx)
  have hres : v.map (Value.redirect (substitute t)) = v := by
    cases v with
    | none => rfl
    | some x => exact congrArg some (redirect_eq_self fun f hf => hfunc f (congrArg some hf))
  simp only [merging, hmap, hvs, hres] at hcall'
  refine ⟨_, hcall', rfl, fun name x hx hne => ?_⟩
  obtain ⟨_, _, hr⟩ := Machine.exists_call_fst ⟨m, cells, memory, budget⟩ callee args
  rw [hcall] at hr
  cases hr
  obtain ⟨g, hg, hx⟩ := bind_eq_some_iff.mp hx
  obtain ⟨c, hc, hx⟩ := bind_eq_some_iff.mp hx
  refine bind_eq_some_iff.mpr ⟨g, hglobals ▸ hg, bind_eq_some_iff.mpr ⟨c, hc, ?_⟩⟩
  rw [Array.getElem?_map, hx, map_some, redirect_eq_self hne]

/-- Merging functions takes away only functions with the text of one that stays. It keeps what calls
give and what they leave behind, other names of functions apart. -/
theorem mergeFunctions_exact (hv : m.findings = []) (hk : m.Keyed)
    (hc : ∀ c ∈ m.constants, c.isFloat = false) :
    ∃ m' r, mergeFunctions m = .ok (m', r) ∧
      (∀ a f, m.function? a = some f → m'.function? a = none → ∃ b g, m.function? b = some g ∧
        (m'.function? b).isSome ∧ canonicalForm f = canonicalForm g) ∧
      (∀ budget, (∀ f, .func f ∉ (Machine.ofModule m budget).memory) ∧
        { Machine.ofModule m budget with module := m' } = Machine.ofModule m' budget) ∧
      (∀ machine : Machine, machine.module = m → (∀ f, .func f ∉ machine.memory) →
        ∀ callee args r v, (m'.function? callee).isSome → (∀ f, .func f ∉ args) →
          (∀ f, v ≠ some (.func f)) → machine.call callee args = (r, .ok v) →
          (∀ s, machine.Visits callee args s → ¬ s.ComparesFunctions) →
          ∃ r', { machine with module := m' }.call callee args = (r', .ok v) ∧
            r'.budget = r.budget ∧ ∀ name x, r.global? name = some x → (∀ f, x ≠ .func f) →
              r'.global? name = some x) ∧
      ∀ a b f g, m.function? a = some f → m.function? b = some g →
        canonicalForm f = canonicalForm g → ∀ machine : Machine, machine.module = m → ∀ args r v,
          machine.call a args = (r, .ok v) ↔ machine.call b args = (r, .ok v) := by
  obtain ⟨m', r, t, hr, hm, hglobals, hkept, hp⟩ := exists_mergeFunctions hk
  refine ⟨m', r, hr, fun a f hf hnone => ?_, fun budget => ⟨?_, ?_⟩, ?_, ?_⟩
  · cases hget : t.get? a with
    | none =>
      have hsome := (hkept a).mpr ⟨by rw [hf]; rfl, hget⟩
      rw [hnone] at hsome
      cases hsome
    | some b =>
      obtain ⟨f', g, hf', hg, -, -, hform⟩ := hm.same hget
      cases hf.symm.trans hf'
      exact ⟨b, g, hg, (hkept b).mpr ⟨by rw [hg]; rfl, hm.leader hget⟩, hform⟩
  · exact fun f => func_not_mem_placeGlobals (Array.not_mem_empty _)
  · rw [Machine.ofModule, Machine.ofModule, hglobals]
  · rintro ⟨_, cells, memory, budget⟩ rfl hmemory callee args r v hsome hargs hfunc hcall hcompare
    exact call_of_merges hv hk hc hm hglobals hp hmemory ((hkept callee).mp hsome).2 hargs hfunc
      hcall hcompare
  · rintro a b f g hf hg h machine rfl args r v
    exact ⟨call_eq_of_form hv hk hc hf hg h, call_eq_of_form hv hk hc hg hf h.symm⟩

/-- Add up the numbers to a given one. -/
def sumTo : Function :=
  { Function.create ⟨0⟩ "sum" [("n", .i64)] .i64 with
    graph := ⟨.ofList [
      (⟨0⟩, ⟨⟨0⟩, none, [], [], .plain ⟨0⟩ (.condBranch (.reg ⟨0⟩) ⟨1⟩ ⟨2⟩)⟩),
      (⟨1⟩, ⟨⟨1⟩, none, [], [.plain ⟨1⟩ (.binary ⟨1⟩ .sub (.reg ⟨0⟩) (.const (.i64 1))),
          .plain ⟨2⟩ (.call (some ⟨2⟩) ⟨0⟩ [.reg ⟨1⟩]),
          .plain ⟨3⟩ (.binary ⟨3⟩ .add (.reg ⟨0⟩) (.reg ⟨2⟩))],
        .plain ⟨4⟩ (.ret (some (.reg ⟨3⟩)))⟩),
      (⟨2⟩, ⟨⟨2⟩, none, [], [], .plain ⟨5⟩ (.ret (some (.const (.i64 0))))⟩)], ⟨0⟩, 3, 6⟩
    nextReg := 4 }

/-- The same in other words, with a call of `sumTo` for the rest. -/
def total : Function :=
  { Function.create ⟨1⟩ "total" [("n", .i64)] .i64 with
    graph := ⟨.ofList [
      (⟨5⟩, ⟨⟨5⟩, some "first", [], [], .plain ⟨9⟩ (.condBranch (.reg ⟨0⟩) ⟨4⟩ ⟨3⟩)⟩),
      (⟨4⟩, ⟨⟨4⟩, none, [], [.plain ⟨8⟩ (.binary ⟨7⟩ .sub (.reg ⟨0⟩) (.const (.i64 1))),
          .plain ⟨7⟩ (.call (some ⟨6⟩) ⟨0⟩ [.reg ⟨7⟩]),
          .plain ⟨6⟩ (.binary ⟨5⟩ .add (.reg ⟨0⟩) (.reg ⟨6⟩))],
        .plain ⟨5⟩ (.ret (some (.reg ⟨5⟩)))⟩),
      (⟨3⟩, ⟨⟨3⟩, none, [], [], .plain ⟨4⟩ (.ret (some (.const (.i64 0))))⟩)], ⟨5⟩, 6, 10⟩
    nextReg := 8 }

def tally : Function :=
  { Function.create ⟨2⟩ "main" [] .i64 with
    attributes := { Attributes.default with linkage := .public_ }
    graph := ⟨.ofList [
      (⟨0⟩, ⟨⟨0⟩, none, [], [.plain ⟨0⟩ (.functionRef ⟨0⟩ ⟨1⟩),
          .plain ⟨1⟩ (.storeGlobal ⟨1⟩ (.reg ⟨0⟩)),
          .plain ⟨2⟩ (.callIndirect (some ⟨1⟩) (.reg ⟨0⟩) [.const (.i64 2)]),
          .plain ⟨3⟩ (.storeGlobal ⟨0⟩ (.reg ⟨1⟩)), .plain ⟨4⟩ (.call (some ⟨2⟩) ⟨1⟩ [.reg ⟨1⟩])],
        .plain ⟨5⟩ (.ret (some (.reg ⟨2⟩)))⟩)], ⟨0⟩, 1, 6⟩
    nextReg := 3 }

def abacus : Module where
  name := "abacus"
  functions := .ofList [(⟨0⟩, sumTo), (⟨1⟩, total), (⟨2⟩, tally)]
  globals := .ofList [(⟨0⟩, ⟨⟨0⟩, "count", .i64, none, true, .internal⟩),
    (⟨1⟩, ⟨⟨1⟩, "hook", .i64, none, true, .internal⟩)]
  nextFunction := 3
  nextGlobal := 2

theorem keyed_abacus : abacus.Keyed := by decide

theorem groups_abacus : groups (abacus.functionList.filterMap functionMember?) =
    [[⟨0⟩, ⟨1⟩], [⟨2⟩]] := by
  have hgroups : ∀ s u : List Char, s ≠ u → groups
      [(⟨s, ⟨0⟩, true⟩ : Member (List Char) FuncId), ⟨s, ⟨1⟩, true⟩, ⟨u, ⟨2⟩, false⟩] =
        [[⟨0⟩, ⟨1⟩], [⟨2⟩]] := by
    intro s u h
    simp [groups, addMember, h]
  have hmember : ∀ {f : Function}, f.isOptimizable = true →
      functionMember? f = some ⟨canonicalForm f, f.id, f.attributes.linkage.isLocal⟩ :=
    fun h => if_pos h
  have hcanonical : canonical total = canonical sumTo := by cbv
  have htotal : canonicalForm total = canonicalForm sumTo := by
    rw [canonicalForm, hcanonical, canonicalForm]
  have htally : canonicalForm sumTo ≠ canonicalForm tally := by
    intro h
    have hcanonical := canonical_eq_of_form (keyed_abacus.block ⟨0⟩ sumTo rfl)
      (keyed_abacus.block ⟨2⟩ tally rfl) (by decide) (by decide) h
    exact absurd (congrArg (fun f => f.signature.params.length) hcanonical) (by decide)
  have hlist : abacus.functionList = [sumTo, total, tally] := rfl
  rw [hlist, filterMap_cons_some (hmember (by decide)), filterMap_cons_some (hmember (by decide)),
    filterMap_cons_some (hmember (by decide)), filterMap_nil, htotal]
  exact hgroups _ _ htally

theorem abacus_exact : abacus.findings = [] ∧ ∃ m' r, mergeFunctions abacus = .ok (m', r) ∧
    m'.functions.keys = [⟨0⟩, ⟨2⟩] ∧
    ∃ r', (Machine.ofModule m' 100).call ⟨2⟩ [] = (r', .ok (some (.i64 6))) ∧
      r'.global? "count" = some (.i64 3) := by
  have hv : abacus.findings = [] := by cbv
  have hkeys : (mergeFunctions abacus).toOption.map (fun x => x.1.functions.keys) =
      some [⟨0⟩, ⟨2⟩] := by
    rw [mergeFunctions, groups_abacus]
    cbv
  have hrun : ((Machine.ofModule abacus 100).call ⟨2⟩ []).2 = .ok (some (.i64 6)) := by
    decide +kernel
  have hcount : ((Machine.ofModule abacus 100).call ⟨2⟩ []).1.global? "count" = some (.i64 3) := by
    decide +kernel
  have hplain : ∀ key f, abacus.functions.get? key = some f → ∀ b ∈ f.graph.blockList,
      ∀ o ∈ b.instructions, o.kind.isCompare = false := by decide
  have hc : ∀ c ∈ abacus.constants, c.isFloat = false := by decide
  obtain ⟨m', r, hr, -, hfresh, hcall, -⟩ := mergeFunctions_exact hv keyed_abacus hc
  rw [hr] at hkeys
  have hkeys : m'.functions.keys = [⟨0⟩, ⟨2⟩] := Option.some.inj hkeys
  have hmain : (m'.function? ⟨2⟩).isSome :=
    isSome_iff_exists.mpr (Table.mem_keys_iff.mp (hkeys ▸ by decide))
  have hres : (Machine.ofModule abacus 100).call ⟨2⟩ [] =
      (((Machine.ofModule abacus 100).call ⟨2⟩ []).1, .ok (some (.i64 6))) := Prod.ext rfl hrun
  have hnot : ∀ s, (Machine.ofModule abacus 100).Visits ⟨2⟩ [] s → ¬ s.ComparesFunctions :=
    fun s hs => hs.not_comparesFunctions hv keyed_abacus hplain
  obtain ⟨r', hr', -, hglobal⟩ := hcall (Machine.ofModule abacus 100) rfl (hfresh 100).1 ⟨2⟩ [] _ _
    hmain (by simp) (by simp) hres hnot
  exact ⟨hv, m', r, hr, hkeys, r', (hfresh 100).2 ▸ hr', hglobal "count" _ hcount (by simp)⟩

end Duplicates

end SiteFusion
