import SiteFusion.Proofs.RelocatedGlobals
import SiteFusion.Proofs.MergedFunctions

namespace SiteFusion

open List Option

/-- No constant is stored, and no variable starts with a floating point number. -/
structure Module.Settled (m : Module) : Prop where
  key : m.KeyedGlobals
  initializer : ∀ k g, m.globals.get? k = some g → ∀ x, g.initializer ≠ some (.f64 x)
  stores : ∀ k g, m.globals.get? k = some g → m.isStored k = true → g.mutable = true

namespace Module

variable {m m' : Module} {g : GlobalId} {f : Function} {key : FuncId}

theorem mem_instructions {o : Operation Instruction} :
    o ∈ m.instructions ↔ ∃ key f, m.function? key = some f ∧ o ∈ f.instructions :=
  Table.mem_flatMap_values

theorem isStored_iff :
    m.isStored g = true ↔ ∃ o ∈ m.instructions, ∃ v, o.kind = .storeGlobal g v := by
  rw [isStored, List.any_eq_true]
  refine exists_congr fun o => and_congr_right fun _ => ?_
  cases o.kind <;> simp

theorem isLoaded_iff :
    m.isLoaded g = true ↔ ∃ o ∈ m.instructions, ∃ d t, o.kind = .loadGlobal d g t := by
  rw [isLoaded, List.any_eq_true]
  refine exists_congr fun o => and_congr_right fun _ => ?_
  cases o.kind <;> simp

def fate (m : Module) (g : GlobalId) : Option Fate :=
  (m.globals.get? g).bind fun v =>
    if v.mutable then if v.linkage.isLocal && !m.isLoaded g then some .idle else none
    else some (.fixed v.initial)

theorem fate_eq_fixed {c : Const} : m.fate g = some (.fixed c) ↔
    ∃ v, m.globals.get? g = some v ∧ v.mutable = false ∧ v.initial = c := by
  unfold fate
  rw [Option.bind_eq_some_iff]
  refine exists_congr fun v => and_congr_right fun _ => ?_
  cases hm : v.mutable with
  | false => simp
  | true => cases hl : v.linkage.isLocal && !m.isLoaded g <;> simp

theorem fate_eq_idle : m.fate g = some .idle ↔ ∃ v, m.globals.get? g = some v ∧
    v.mutable = true ∧ v.linkage.isLocal = true ∧ m.isLoaded g = false := by
  unfold fate
  rw [Option.bind_eq_some_iff]
  refine exists_congr fun v => and_congr_right fun _ => ?_
  cases v.mutable <;> cases v.linkage.isLocal <;> cases m.isLoaded g <;> simp

theorem Settled.of_subset (h : m.Settled)
    (hg : ∀ k v, m'.globals.get? k = some v → m.globals.get? k = some v)
    (hs : ∀ k, m'.isStored k = true → m.isStored k = true) : m'.Settled where
  key k v hv := h.key k v (hg k v hv)
  initializer k v hv := h.initializer k v (hg k v hv)
  stores k v hv hk := h.stores k v (hg k v hv) (hs k hk)

end Module

/-- Code with other instructions, some of which are left out. -/
def Proc.edit (h : Instruction → Instruction) (keep : Instruction → Bool) (p : Proc) : Proc :=
  { p with code := fun k => (p.code k).map fun c =>
      { c with body := (c.body.map h).filter keep } }

theorem Function.exists_of_edit {f f' : Function} {h : Instruction → Instruction}
    {keep : Instruction → Bool} (hp : f'.proc = f.proc.edit h keep) {o : Operation Instruction}
    (ho : o ∈ f'.instructions) : ∃ o₀ ∈ f.instructions, o.kind = h o₀.kind := by
  obtain ⟨l, b', hb', ho⟩ := Function.mem_instructions.mp ho
  have hcode : f'.proc.code l = some b'.code := Function.code_eq_some.mpr ⟨b', hb', rfl⟩
  rw [hp] at hcode
  obtain ⟨c, hc, he⟩ := map_eq_some_iff.mp hcode
  obtain ⟨b, hb, rfl⟩ := Function.code_eq_some.mp hc
  have hmem : o.kind ∈ b'.code.body := List.mem_map_of_mem ho
  rw [← he] at hmem
  obtain ⟨i, hi, hio⟩ := List.mem_map.mp (mem_of_mem_filter hmem)
  obtain ⟨o₀, ho₀, rfl⟩ := List.mem_map.mp hi
  exact ⟨o₀, Function.mem_instructions.mpr ⟨l, b, hb, ho₀⟩, hio.symm⟩

namespace Translation

variable {T : Translation} {m m' : Module} {h : Instruction → Instruction}
  {keep : Instruction → Bool}

theorem Body.edit {n : Coding} {is : List Instruction}
    (hi : ∀ i ∈ is, if keep (h i) then T.Keeps n i (h i) else T.Drops n i) :
    T.Body n is ((is.map h).filter keep) := by
  induction is with
  | nil => exact .nil
  | cons i is ih =>
    obtain ⟨hhead, htail⟩ := forall_mem_cons.mp hi
    rw [map_cons]
    split at hhead
    · next hk =>
      rw [filter_cons_of_pos hk]
      exact .keep hhead (ih htail)
    · next hk =>
      rw [filter_cons_of_neg hk]
      exact .drop hhead (ih htail)

theorem sound_edit (hM : T.pairing.Faithful T.rename) (hφ : T.rename = id)
    (hs : T.source = m.program) (ht : T.target = m'.program)
    (hf : ∀ key f, m.function? key = some f → f.isDeclaration = false → ∃ f' h keep,
      m'.function? key = some f' ∧ f'.isDeclaration = false ∧ f'.proc = f.proc.edit h keep ∧
      ∀ o ∈ f.instructions, if keep (h o.kind) then T.Keeps .all o.kind (h o.kind)
        else T.Drops .all o.kind) : T.Sound where
  faithful := hM
  finds {key p} hp := by
    have hp' : m.program key = some p := hs ▸ hp
    obtain ⟨f, hkey, hd, rfl⟩ := Module.program_eq_some.mp hp'
    obtain ⟨f', h, keep, hkey', hd', hproc, hall⟩ := hf key f hkey hd
    refine ⟨.all, f.proc, f'.proc, hp, ?_, recodes_bodies ?_ ?_ ?_ fun l c hc => ?_⟩
    · rw [ht, hφ]
      exact Module.program_eq_some.mpr ⟨f', hkey', hd', rfl⟩
    · rw [hproc]
      rfl
    · rw [hproc]
      rfl
    · rw [hproc]
      rfl
    · refine ⟨(c.body.map h).filter keep, by rw [hproc]; exact congrArg (Option.map _) hc,
        .edit fun i hi => ?_⟩
      obtain ⟨b, hb, rfl⟩ := Function.code_eq_some.mp hc
      obtain ⟨o, ho, rfl⟩ := List.mem_map.mp hi
      exact hall o (Function.mem_instructions.mpr ⟨l, b, hb, ho⟩)

variable {E : Program} {lax : Prop}

theorem keeps_settled (hr : m.Relocates m.fate m') (hm : m.Settled) {o : Operation Instruction}
    (ho : o ∈ m.instructions)
    (hkept : ∀ g ∈ o.kind.global?, m.globals.contains g = true → m'.globals.contains g = true) :
    (relocation m.fate E m m' lax).Keeps .all o.kind o.kind := by
  by_cases hshared : ∀ g ∈ o.kind.global?, m.fate g = none
  · exact keeps_shared hr fun g hg => ⟨hshared g hg, hkept g hg⟩
  · push Not at hshared
    obtain ⟨g, hg, hfate⟩ := hshared
    obtain ⟨x, hx⟩ := Option.ne_none_iff_exists'.mp hfate
    have hkept := hkept g hg
    cases hi : o.kind with
    | loadGlobal d g' t =>
      rw [hi] at hg
      cases hg
      cases x with
      | fixed c => exact keeps_fixed hr hx (.inr ⟨g, rfl, hx, hkept⟩)
      | idle =>
        obtain ⟨v, -, -, -, hl⟩ := Module.fate_eq_idle.mp hx
        rw [Module.isLoaded_iff.mpr ⟨o, ho, d, t, hi⟩] at hl
        cases hl
    | storeGlobal g' v =>
      rw [hi] at hg
      cases hg
      cases x with
      | fixed c =>
        obtain ⟨w, hw, hmut, -⟩ := Module.fate_eq_fixed.mp hx
        rw [hm.stores g w hw (Module.isStored_iff.mpr ⟨o, ho, v, hi⟩)] at hmut
        cases hmut
      | idle => exact keeps_idle hr hx hkept
    | _ =>
      rw [hi] at hg
      cases hg

end Translation

namespace Duplicates

variable {m : Module} {t : Table GlobalId GlobalId} {a b : GlobalId}

theorem exists_of_constantMember (hk : m.KeyedGlobals) {x : Member (Ty × Const) GlobalId}
    (hx : x ∈ m.globals.values.filterMap constantMember?) :
    ∃ g, m.globals.get? x.id = some g ∧ g.mutable = false ∧ g.initial = x.key.2 := by
  obtain ⟨g, hg, hx⟩ := mem_filterMap.mp hx
  obtain ⟨k, hk'⟩ := Table.mem_values_iff.mp hg
  unfold constantMember? at hx
  split at hx
  · cases hx
  · next hm =>
    obtain ⟨c, hc, rfl⟩ := map_eq_some_iff.mp hx
    exact ⟨g, hk k g hk' ▸ hk', Bool.eq_false_iff.mpr hm, by rw [Global.initial, hc]; rfl⟩

def withoutCopies (m : Module) (t : Table GlobalId GlobalId) : Module :=
  { m.mapInstructions (redirectGlobal t) with
    globals := m.globals.filter fun g _ => !t.contains g }

/-- A local constant is replaced by another constant with the same value, which stays. -/
structure Copies (m : Module) (t : Table GlobalId GlobalId) : Prop where
  isLocal : ∀ {a b}, t.get? a = some b → ∀ g, m.globals.get? a = some g →
    g.linkage.isLocal = true
  fixed : ∀ {a b}, t.get? a = some b → ∃ c, m.fate a = some (.fixed c) ∧
    m.fate b = some (.fixed c)
  leader : ∀ {a b}, t.get? a = some b → t.get? b = none

theorem copies_of_replacements (hk : m.KeyedGlobals)
    (ht : replacements (isLocalGlobal m) (groups (m.globals.values.filterMap constantMember?))
      .empty = .ok t) : Copies m t where
  isLocal {a b} hab g hg := by
    obtain ⟨hl, -⟩ := of_replacements (sublist_constantMembers hk) ht hab
    rw [isLocalGlobal, hg] at hl
    exact Except.ok.inj hl
  fixed {a b} hab := by
    obtain ⟨ids, hids, ha, -⟩ := (replacements_cases ht hab).resolve_left (by simp)
    obtain ⟨key, hkey⟩ := exists_key_of_mem_groups hids
    obtain ⟨x, hx, rfl, hxk⟩ := hkey a (mem_cons_of_mem _ ha)
    obtain ⟨y, hy, rfl, hyk⟩ := hkey b mem_cons_self
    obtain ⟨g, hg, hgm, hgc⟩ := exists_of_constantMember hk hx
    obtain ⟨h, hh, hhm, hhc⟩ := exists_of_constantMember hk hy
    exact ⟨key.2, Module.fate_eq_fixed.mpr ⟨g, hg, hgm, hxk ▸ hgc⟩,
      Module.fate_eq_fixed.mpr ⟨h, hh, hhm, hyk ▸ hhc⟩⟩
  leader {a b} hab := (of_replacements (sublist_constantMembers hk) ht hab).2.2

theorem exists_mergeConstants (hk : m.KeyedGlobals) :
    ∃ m' r t, mergeConstants m = .ok (m', r) ∧ Copies m t ∧ (m' = m ∨ m' = withoutCopies m t) := by
  have hreplace : ∃ t, replacements (isLocalGlobal m)
      (groups (m.globals.values.filterMap constantMember?)) .empty = .ok t := by
    refine exists_replacements .empty fun ids hids a ha => ?_
    obtain ⟨key, hkey⟩ := exists_key_of_mem_groups hids
    obtain ⟨x, hx, rfl, -⟩ := hkey a ha
    obtain ⟨g, hg, -⟩ := exists_of_constantMember hk hx
    exact ⟨_, by rw [isLocalGlobal, hg]⟩
  obtain ⟨t, ht⟩ := hreplace
  by_cases hempty : t.isEmpty = true
  · exact ⟨m, _, t, bind_eq_ok.mpr ⟨t, ht, if_pos hempty⟩, copies_of_replacements hk ht, .inl rfl⟩
  · exact ⟨_, _, t, bind_eq_ok.mpr ⟨t, ht, if_neg hempty⟩, copies_of_replacements hk ht, .inr rfl⟩

theorem get?_withoutCopies {g : Global} : (withoutCopies m t).globals.get? a = some g ↔
    m.globals.get? a = some g ∧ t.get? a = none := by
  rw [withoutCopies, Table.get?_filter, filter_eq_some_iff, Bool.not_eq_true', Table.contains,
    isSome_eq_false_iff, isNone_iff_eq_none]

theorem relocates_withoutCopies (hk : m.KeyedGlobals) :
    m.Relocates m.fate (withoutCopies m t) where
  key := hk
  key' k g hg := hk k g (get?_withoutCopies.mp hg).1
  sublist := List.filter_sublist.map _
  initial k g g' hg hg' := by
    cases hg.symm.trans (get?_withoutCopies.mp hg').1
    rfl
  fixed k c hc g hg := by
    obtain ⟨v, hv, -, hvc⟩ := Module.fate_eq_fixed.mp hc
    cases hg.symm.trans hv
    exact hvc

theorem proc_mapInstructions (f : Function) (h : Instruction → Instruction) :
    (f.mapInstructions h).proc = f.proc.edit h fun _ => true := by
  simp only [Function.proc, Function.mapInstructions, Graph.mapBlocks, Proc.edit, Graph.block?,
    Table.get?_map, Option.map_map, filter_true]
  congr 1
  funext k
  refine congrArg (Option.map · _) (funext fun b => ?_)
  simp [Block.code, Block.mapInstructions, Operation.map, Function.comp_def]

theorem exists_load (hm : m.Settled) (ht : Copies m t) {o : Operation Instruction}
    (ho : o ∈ m.instructions) (hg : o.kind.global? = some a) (hab : t.get? a = some b) :
    ∃ d ty, o.kind = .loadGlobal d a ty := by
  cases hi : o.kind with
  | loadGlobal d g ty =>
    rw [hi] at hg
    cases hg
    exact ⟨d, ty, rfl⟩
  | storeGlobal g v =>
    rw [hi] at hg
    cases hg
    obtain ⟨c, hc, -⟩ := ht.fixed hab
    obtain ⟨w, hw, hmut, -⟩ := Module.fate_eq_fixed.mp hc
    rw [hm.stores a w hw (Module.isStored_iff.mpr ⟨o, ho, v, hi⟩)] at hmut
    cases hmut
  | _ =>
    rw [hi] at hg
    cases hg

theorem redirectGlobal_eq_self {i : Instruction} (h : ∀ g ∈ i.global?, t.get? g = none) :
    redirectGlobal t i = i := by
  cases i with
  | loadGlobal d g ty => simp [redirectGlobal, substitute, h g rfl]
  | storeGlobal g v => simp [redirectGlobal, substitute, h g rfl]
  | _ => rfl

theorem keeps_redirectGlobal {E : Program} {lax : Prop} (hm : m.Settled) (ht : Copies m t)
    {o : Operation Instruction} (ho : o ∈ m.instructions) :
    (relocation m.fate E m (withoutCopies m t) lax).Keeps .all o.kind
      (redirectGlobal t o.kind) := by
  by_cases hg : ∀ g ∈ o.kind.global?, t.get? g = none
  · rw [redirectGlobal_eq_self hg]
    refine Translation.keeps_settled (relocates_withoutCopies hm.key) hm ho fun g hi hc => ?_
    obtain ⟨v, hv⟩ := Table.contains_iff.mp hc
    exact Table.contains_iff.mpr ⟨v, get?_withoutCopies.mpr ⟨hv, hg g hi⟩⟩
  · push Not at hg
    obtain ⟨a, ha, hne⟩ := hg
    obtain ⟨b, hab⟩ := Option.ne_none_iff_exists'.mp hne
    obtain ⟨d, ty, hi⟩ := exists_load hm ht ho ha hab
    obtain ⟨c, hac, hbc⟩ := ht.fixed hab
    obtain ⟨v, hv, -⟩ := Module.fate_eq_fixed.mp hbc
    rw [hi]
    refine Translation.keeps_fixed (relocates_withoutCopies hm.key) hac
      (.inr ⟨b, by simp [redirectGlobal, substitute, hab], hbc, fun _ => ?_⟩)
    exact Table.contains_iff.mpr ⟨v, get?_withoutCopies.mpr ⟨hv, ht.leader hab⟩⟩

theorem sound_withoutCopies (hm : m.Settled) (ht : Copies m t) :
    (relocation m.fate m.program m (withoutCopies m t) True).Sound := by
  refine Translation.sound_edit Translation.faithful_relocation rfl rfl rfl fun key f hf hd =>
    ⟨f.mapInstructions (redirectGlobal t), redirectGlobal t, fun _ => true, ?_, ?_,
      proc_mapInstructions f _, fun o ho => ?_⟩
  · have hf : m.functions.get? key = some f := hf
    simp [Module.function?, withoutCopies, Module.mapInstructions, hf]
  · rw [isDeclaration_mapInstructions, hd]
  · exact keeps_redirectGlobal hm ht (Module.mem_instructions.mpr ⟨key, f, hf, ho⟩)

theorem settled_withoutCopies (hm : m.Settled) (ht : Copies m t) :
    (withoutCopies m t).Settled := by
  refine hm.of_subset (fun k v hv => (get?_withoutCopies.mp hv).1) fun k hk => ?_
  obtain ⟨o, ho, v, hi⟩ := Module.isStored_iff.mp hk
  obtain ⟨key, f', hf', ho⟩ := Module.mem_instructions.mp ho
  simp only [Module.function?, withoutCopies, Module.mapInstructions, Table.get?_map] at hf'
  obtain ⟨f, hf, rfl⟩ := map_eq_some_iff.mp hf'
  obtain ⟨o₀, ho₀, he⟩ := Function.exists_of_edit (proc_mapInstructions f _) ho
  have hmem : o₀ ∈ m.instructions := Module.mem_instructions.mpr ⟨key, f, hf, ho₀⟩
  by_cases hg : ∀ g ∈ o₀.kind.global?, t.get? g = none
  · rw [redirectGlobal_eq_self hg] at he
    exact Module.isStored_iff.mpr ⟨o₀, hmem, v, he.symm.trans hi⟩
  · push Not at hg
    obtain ⟨a, ha, hne⟩ := hg
    obtain ⟨b, hab⟩ := Option.ne_none_iff_exists'.mp hne
    obtain ⟨d, ty, hload⟩ := exists_load hm ht hmem ha hab
    rw [hi, hload] at he
    cases he

end Duplicates

namespace Globals

variable {m : Module} {known : List (GlobalId × Const)} {idle : List GlobalId}

/-- The module with all local variables that are never stored as constants. -/
def settle (m : Module) : Module :=
  { m with
    globals := m.globals.mapWithKey fun k g =>
      if ((neverStored m).filter m.globals.contains).contains k then { g with mutable := false }
      else g }

/-- The module without loads of constants and without stores that nobody can see. -/
def simplified (m : Module) : Module :=
  { m with functions := m.functions.map (simplifyFunction (foldable m) (neverLoaded m)) }

theorem simplify_eq (m : Module) : ∃ r, simplify m = .ok (simplified (settle m), r) := ⟨_, rfl⟩

theorem get?_settle {k : GlobalId} {g : Global} (h : (settle m).globals.get? k = some g) :
    ∃ v, m.globals.get? k = some v ∧ g.id = v.id ∧ g.initializer = v.initializer ∧
      g.initial = v.initial ∧ g.linkage = v.linkage ∧
      (g.mutable = v.mutable ∨ k ∈ neverStored m) := by
  rw [settle, Table.get?_mapWithKey] at h
  obtain ⟨v, hv, rfl⟩ := map_eq_some_iff.mp h
  refine ⟨v, hv, ?_⟩
  split
  · next hk => exact ⟨rfl, rfl, rfl, rfl, .inr (mem_of_mem_filter (contains_iff_mem.mp hk))⟩
  · exact ⟨rfl, rfl, rfl, rfl, .inl rfl⟩

theorem settled_settle (hm : m.Settled) : (settle m).Settled where
  key k g hg := by
    obtain ⟨v, hv, hid, -⟩ := get?_settle hg
    rw [hid, hm.key k v hv]
  initializer k g hg x := by
    obtain ⟨v, hv, -, hi, -⟩ := get?_settle hg
    rw [hi]
    exact hm.initializer k v hv x
  stores k g hg hs := by
    obtain ⟨v, hv, -, -, -, -, hmut | hk⟩ := get?_settle hg
    · rw [hmut]
      exact hm.stores k v hv hs
    · obtain ⟨w, hw, rfl⟩ := List.mem_map.mp hk
      have hs : m.isStored w.id = true := hs
      simp [hs] at hw

theorem placeGlobals_map {c : GlobalId → Global → Global}
    (hc : ∀ k g, (c k g).id = g.id ∧ (c k g).initial = g.initial) (l : List (GlobalId × Global))
    (cells : Table GlobalId Nat) (memory : Array Value) :
    Machine.placeGlobals (l.map fun e => c e.1 e.2) cells memory =
      Machine.placeGlobals (l.map Prod.snd) cells memory := by
  induction l generalizing cells memory with
  | nil => rfl
  | cons e l ih =>
    obtain ⟨hid, hinit⟩ := hc e.1 e.2
    unfold Global.initial at hinit
    rw [map_cons, map_cons, Machine.placeGlobals, Machine.placeGlobals, hid, hinit, ih]

theorem ofModule_settle (m : Module) (budget : Nat) : Machine.ofModule (settle m) budget =
    { Machine.ofModule m budget with module := settle m } := by
  have hplace : Machine.placeGlobals (settle m).globals.values .empty #[] =
      Machine.placeGlobals m.globals.values .empty #[] := by
    rw [Table.values, settle, Table.mapWithKey, List.map_map]
    refine placeGlobals_map (c := fun k g =>
      if ((neverStored m).filter m.globals.contains).contains k then { g with mutable := false }
      else g) (fun k g => ?_) m.globals.entries .empty #[]
    split
    · exact ⟨rfl, rfl⟩
    · exact ⟨rfl, rfl⟩
  rw [Machine.ofModule, Machine.ofModule, hplace]

theorem call_settle {f : FuncId} {args : List Value} {budget : Nat} {r : Machine}
    {v : Option Value} (h : (Machine.ofModule m budget).call f args = (r, .ok v)) :
    (Machine.ofModule (settle m) budget).call f args = ({ r with module := settle m }, .ok v) := by
  obtain ⟨memory, left, hr⟩ := Machine.exists_call_fst (Machine.ofModule m budget) f args
  rw [h] at hr
  cases hr
  rw [ofModule_settle]
  obtain ⟨n, hyields, hbudget⟩ := Machine.call_eq_ok_iff.mp h
  exact Machine.call_eq_ok_iff.mpr ⟨n, hyields, hbudget⟩

theorem exists_of_lookup_foldable (hk : m.KeyedGlobals) {g : GlobalId} {c : Const}
    (h : (foldable m).lookup g = some c) : m.fate g = some (.fixed c) := by
  obtain ⟨l₁, l₂, hl, -⟩ := List.lookup_eq_some_iff.mp h
  have hmem : (g, c) ∈ foldable m := by simp [hl]
  obtain ⟨v, hv, hg⟩ := mem_filterMap.mp (mem_reverse.mp hmem)
  obtain ⟨k, hk'⟩ := Table.mem_values_iff.mp hv
  split at hg
  · next hmut =>
    obtain ⟨c', hc', he⟩ := map_eq_some_iff.mp hg
    cases he
    refine Module.fate_eq_fixed.mpr ⟨v, hk k v hk' ▸ hk', ?_, by rw [Global.initial, hc']; rfl⟩
    simp only [Bool.and_eq_true, Bool.not_eq_true'] at hmut
    exact hmut.1
  · cases hg

theorem fate_of_neverLoaded (hm : m.Settled) {g : GlobalId} (h : g ∈ neverLoaded m)
    (hs : m.isStored g = true) : m.fate g = some .idle := by
  obtain ⟨v, hv, rfl⟩ := List.mem_map.mp h
  obtain ⟨hv, hl⟩ := mem_filter.mp hv
  obtain ⟨k, hk⟩ := Table.mem_values_iff.mp hv
  have hid := hm.key k v hk
  subst hid
  simp only [Bool.and_eq_true, Bool.not_eq_true'] at hl
  exact Module.fate_eq_idle.mpr ⟨v, hk, hm.stores _ v hk hs, hl⟩

theorem relocates_simplified (hm : m.Settled) : m.Relocates m.fate (simplified m) where
  key := hm.key
  key' := hm.key
  sublist := .refl _
  initial k g g' hg hg' := by
    cases hg.symm.trans hg'
    rfl
  fixed k c hc g hg := by
    obtain ⟨v, hv, -, hvc⟩ := Module.fate_eq_fixed.mp hc
    cases hg.symm.trans hv
    exact hvc

theorem proc_simplifyFunction (known : List (GlobalId × Const)) (idle : List GlobalId)
    (f : Function) : ∃ h keep, (simplifyFunction known idle f).proc = f.proc.edit h keep ∧
    ∀ i, (h i = i ∧ keep i = true) ∨ (h i = foldLoad known i ∧
      keep (h i) = !isIdleStore idle (h i)) := by
  unfold simplifyFunction
  split
  · refine ⟨foldLoad known, fun i => !isIdleStore idle i, ?_, fun i => .inr ⟨rfl, rfl⟩⟩
    simp only [Function.proc, Graph.mapBlocks, Proc.edit, Graph.block?, Table.get?_map,
      Option.map_map]
    congr 1
    funext k
    refine congrArg (Option.map · _) (funext fun b => ?_)
    simp [Block.code, simplifyBlock, Block.mapInstructions, Operation.map, Function.comp_def,
      List.filter_map]
  · refine ⟨id, fun _ => true, ?_, fun i => .inl ⟨rfl, rfl⟩⟩
    simp [Proc.edit]

theorem isDeclaration_simplifyFunction (f : Function) :
    (simplifyFunction known idle f).isDeclaration = f.isDeclaration := by
  unfold simplifyFunction
  split
  · exact f.isDeclaration_mapBlocks fun _ b => simplifyBlock known idle b
  · rfl

theorem function?_simplified {key : FuncId} {f' : Function} :
    (simplified m).function? key = some f' ↔
      ∃ f, m.function? key = some f ∧ simplifyFunction (foldable m) (neverLoaded m) f = f' := by
  rw [Module.function?, simplified, Table.get?_map, map_eq_some_iff]
  rfl

theorem keeps_foldLoad {E : Program} {lax : Prop} (hm : m.Settled) {o : Operation Instruction}
    (ho : o ∈ m.instructions) : (relocation m.fate E m (simplified m) lax).Keeps .all o.kind
      (foldLoad (foldable m) o.kind) := by
  have hself : (relocation m.fate E m (simplified m) lax).Keeps .all o.kind o.kind :=
    Translation.keeps_settled (relocates_simplified hm) hm ho fun _ _ h => h
  cases hi : o.kind with
  | loadGlobal d g t =>
    rw [hi] at hself
    cases hc : (foldable m).lookup g with
    | none => simpa only [foldLoad, hc] using hself
    | some c =>
      simp only [foldLoad, hc]
      exact Translation.keeps_fixed (relocates_simplified hm)
        (exists_of_lookup_foldable hm.key hc) (.inl rfl)
  | _ =>
    rw [hi] at hself
    exact hself

theorem sound_simplified (hm : m.Settled) :
    (relocation m.fate m.program m (simplified m) True).Sound := by
  refine Translation.sound_edit Translation.faithful_relocation rfl rfl rfl fun key f hf hd => ?_
  obtain ⟨h, keep, hproc, hedit⟩ := proc_simplifyFunction (foldable m) (neverLoaded m) f
  refine ⟨_, h, keep, function?_simplified.mpr ⟨f, hf, rfl⟩,
    (isDeclaration_simplifyFunction f).trans hd, hproc, fun o ho => ?_⟩
  have ho : o ∈ m.instructions := Module.mem_instructions.mpr ⟨key, f, hf, ho⟩
  rcases hedit o.kind with ⟨hh, hkeep⟩ | ⟨hh, hkeep⟩
  · rw [hh, if_pos hkeep]
    exact Translation.keeps_settled (relocates_simplified hm) hm ho fun _ _ h => h
  · rw [hkeep, hh]
    split
    · exact keeps_foldLoad hm ho
    · next hidle =>
      cases hi : o.kind with
      | storeGlobal g v =>
        rw [hi] at hidle
        have hg : g ∈ neverLoaded m := by simpa [foldLoad, isIdleStore] using hidle
        exact Translation.drops_idle (relocates_simplified hm)
          (fate_of_neverLoaded hm hg (Module.isStored_iff.mpr ⟨o, ho, v, hi⟩)) trivial
      | loadGlobal d g t =>
        rw [hi] at hidle
        cases hc : (foldable m).lookup g <;> simp [foldLoad, hc, isIdleStore] at hidle
      | _ =>
        rw [hi] at hidle
        simp [foldLoad, isIdleStore] at hidle

theorem settled_simplified (hm : m.Settled) : (simplified m).Settled := by
  refine hm.of_subset (fun _ _ hv => hv) fun k hk => ?_
  obtain ⟨o, ho, v, hi⟩ := Module.isStored_iff.mp hk
  obtain ⟨key, f', hf', ho⟩ := Module.mem_instructions.mp ho
  obtain ⟨f, hf, rfl⟩ := function?_simplified.mp hf'
  obtain ⟨h, keep, hproc, hedit⟩ := proc_simplifyFunction (foldable m) (neverLoaded m) f
  obtain ⟨o₀, ho₀, he⟩ := Function.exists_of_edit hproc ho
  refine Module.isStored_iff.mpr ⟨o₀, Module.mem_instructions.mpr ⟨key, f, hf, ho₀⟩, v, ?_⟩
  rw [hi] at he
  rcases hedit o₀.kind with ⟨hh, -⟩ | ⟨hh, -⟩
  · exact (he.trans hh).symm
  · rw [hh] at he
    cases hk : o₀.kind with
    | loadGlobal d g t =>
      rw [hk] at he
      cases hc : (foldable m).lookup g <;> simp [foldLoad, hc] at he
    | _ =>
      rw [hk] at he
      exact he.symm

end Globals

/-- Merging equal constants and folding what is known of global variables leave no constant that is
stored. Calls give the same results under the same budget, and what can be seen from outside ends
with the same values. -/
theorem constants_exact {m : Module} (hm : m.Settled) {T : ModuleTransform}
    (hT : T = Duplicates.mergeConstants ∨ T = Globals.simplify) :
    ∃ m' r, T m = .ok (m', r) ∧ m'.Settled ∧
      ∀ budget f args r v, (∀ c, .ptr c ∉ args) → (∀ c, v ≠ some (.ptr c)) →
        (Machine.ofModule m budget).call f args = (r, .ok v) →
        ∃ r', (Machine.ofModule m' budget).call f args = (r', .ok v) ∧
          ∀ k g x, m.globals.get? k = some g → g.linkage.isLocal = false →
            r.valueOf k = some x → (∀ c, x ≠ .ptr c) → r'.valueOf k = some x := by
  have hidle : ∀ {n : Module} {k g}, n.globals.get? k = some g → g.linkage.isLocal = false →
      n.fate k ≠ some .idle := by
    intro n k g hg hl h
    obtain ⟨v, hv, -, hlocal, -⟩ := Module.fate_eq_idle.mp h
    cases hg.symm.trans hv
    rw [hl] at hlocal
    cases hlocal
  rcases hT with rfl | rfl
  · obtain ⟨m', r, t, hr, ht, rfl | rfl⟩ := Duplicates.exists_mergeConstants hm.key
    · exact ⟨_, r, hr, hm, fun budget f args r v _ _ h => ⟨r, h, fun _ _ _ _ _ hx _ => hx⟩⟩
    · refine ⟨_, r, hr, Duplicates.settled_withoutCopies hm ht,
        fun budget f args r v hargs hv hcall => ?_⟩
      obtain ⟨r', hr', -, -, hvalues⟩ := Translation.call_relocation
        (Duplicates.relocates_withoutCopies hm.key) (Duplicates.sound_withoutCopies hm ht)
        (fun _ _ h => h) hargs hv hcall
      refine ⟨r', hr', fun k g x hg hl => hvalues k x ?_ (hidle hg hl)⟩
      refine Table.contains_iff.mpr ⟨g, Duplicates.get?_withoutCopies.mpr ⟨hg, ?_⟩⟩
      refine Option.eq_none_iff_forall_ne_some.mpr fun b hb => ?_
      rw [ht.isLocal hb g hg] at hl
      cases hl
  · obtain ⟨r, hr⟩ := Globals.simplify_eq m
    have hs := Globals.settled_settle hm
    refine ⟨_, r, hr, Globals.settled_simplified hs, fun budget f args r v hargs hv hcall => ?_⟩
    obtain ⟨r', hr', -, -, hvalues⟩ := Translation.call_relocation
      (Globals.relocates_simplified hs) (Globals.sound_simplified hs) (fun _ _ h => h) hargs hv
      (Globals.call_settle hcall)
    refine ⟨r', hr', fun k g x hg hl hx hptr => ?_⟩
    obtain ⟨g', hg', hl'⟩ : ∃ g', (Globals.settle m).globals.get? k = some g' ∧
        g'.linkage.isLocal = false := by
      obtain ⟨g', hg'⟩ : ∃ g', (Globals.settle m).globals.get? k = some g' := by
        rw [Globals.settle, Table.get?_mapWithKey, hg]
        exact ⟨_, rfl⟩
      obtain ⟨v, hv, -, -, -, hlink, -⟩ := Globals.get?_settle hg'
      cases hg.symm.trans hv
      exact ⟨g', hg', hlink ▸ hl⟩
    exact hvalues k x (Table.contains_iff.mpr ⟨g', hg'⟩) (hidle hg' hl') hx hptr

/-- A price list. The number five is there three times: as a local and as a public constant, and in
a variable that is never stored. What `scratch` holds is never looked at, and `audit` has to stay as
it is. -/
def ledger : Module where
  name := "ledger"
  functions := .ofList [
    (⟨0⟩, { Function.create ⟨0⟩ "charge" [("n", .i64)] .i64 with
      attributes := { Attributes.default with linkage := .public_ }
      graph := ⟨.ofList [(⟨0⟩, ⟨⟨0⟩, none, [], [.plain ⟨0⟩ (.loadGlobal ⟨1⟩ ⟨0⟩ .i64),
          .plain ⟨1⟩ (.loadGlobal ⟨2⟩ ⟨2⟩ .i64), .plain ⟨2⟩ (.storeGlobal ⟨3⟩ (.reg ⟨2⟩)),
          .plain ⟨3⟩ (.alloca ⟨3⟩ .i64),
          .plain ⟨4⟩ (.binary ⟨4⟩ .mul (.reg ⟨0⟩) (.reg ⟨1⟩)),
          .plain ⟨5⟩ (.store (.reg ⟨3⟩) (.reg ⟨4⟩)),
          .plain ⟨6⟩ (.call (some ⟨5⟩) ⟨1⟩ [.reg ⟨3⟩]),
          .plain ⟨7⟩ (.storeGlobal ⟨4⟩ (.reg ⟨5⟩))],
        .plain ⟨8⟩ (.ret (some (.reg ⟨5⟩)))⟩)], ⟨0⟩, 1, 9⟩
      nextReg := 6 }),
    (⟨1⟩, { Function.create ⟨1⟩ "audit" [("p", .ptr .i64)] .i64 with
      attributes := { Attributes.default with optimizeNone := true }
      graph := ⟨.ofList [(⟨0⟩, ⟨⟨0⟩, none, [], [.plain ⟨0⟩ (.load ⟨1⟩ (.reg ⟨0⟩) .i64),
          .plain ⟨1⟩ (.storeGlobal ⟨3⟩ (.reg ⟨1⟩)), .plain ⟨2⟩ (.loadGlobal ⟨2⟩ ⟨0⟩ .i64),
          .plain ⟨3⟩ (.binary ⟨3⟩ .add (.reg ⟨1⟩) (.reg ⟨2⟩))],
        .plain ⟨4⟩ (.ret (some (.reg ⟨3⟩)))⟩)], ⟨0⟩, 1, 5⟩
      nextReg := 4 })]
  globals := .ofList [(⟨0⟩, ⟨⟨0⟩, "fee", .i64, some (.i64 5), false, .internal⟩),
    (⟨1⟩, ⟨⟨1⟩, "rate", .i64, some (.i64 5), false, .public_⟩),
    (⟨2⟩, ⟨⟨2⟩, "scale", .i64, some (.i64 5), true, .internal⟩),
    (⟨3⟩, ⟨⟨3⟩, "scratch", .i64, none, true, .internal⟩),
    (⟨4⟩, ⟨⟨4⟩, "total", .i64, none, true, .public_⟩)]
  nextFunction := 2
  nextGlobal := 5

/-- The local constant goes. Its loads are folded in the other way, and a store goes with them. -/
theorem ledger_exact : ledger.Settled ∧
    (∃ m' r, Duplicates.mergeConstants ledger = .ok (m', r) ∧
      m'.globals.keys = [⟨1⟩, ⟨2⟩, ⟨3⟩, ⟨4⟩] ∧ m'.Settled ∧
      ∃ r', (Machine.ofModule m' 20).call ⟨0⟩ [.i64 3] = (r', .ok (some (.i64 20))) ∧
        r'.valueOf ⟨4⟩ = some (.i64 20)) ∧
    ∃ m' r, Globals.simplify ledger = .ok (m', r) ∧ m'.instructions.length = 11 ∧ m'.Settled ∧
      ∃ r', (Machine.ofModule m' 20).call ⟨0⟩ [.i64 3] = (r', .ok (some (.i64 20))) ∧
        r'.valueOf ⟨4⟩ = some (.i64 20) := by
  have hinit : ∀ k g, ledger.globals.get? k = some g →
      g.initializer = none ∨ g.initializer = some (.i64 5) := by decide
  have hm : ledger.Settled := by
    refine ⟨by decide, fun k g hg x hx => ?_, by decide⟩
    rcases hinit k g hg with h | h <;> rw [h] at hx <;> cases hx
  have hkeys : (Duplicates.mergeConstants ledger).toOption.map (fun x => x.1.globals.keys) =
    some [⟨1⟩, ⟨2⟩, ⟨3⟩, ⟨4⟩] := by cbv
  have hlength : (Globals.simplify ledger).toOption.map (fun x => x.1.instructions.length) =
    some 11 := by cbv
  have hrun : ((Machine.ofModule ledger 20).call ⟨0⟩ [.i64 3]).2 = .ok (some (.i64 20)) := by
    decide +kernel
  have htotal : ((Machine.ofModule ledger 20).call ⟨0⟩ [.i64 3]).1.valueOf ⟨4⟩ =
    some (.i64 20) := by decide +kernel
  obtain ⟨m', r, hr, hm', hcall⟩ := constants_exact hm (.inl rfl)
  obtain ⟨n', s, hs, hn', hcall'⟩ := constants_exact hm (.inr rfl)
  rw [hr] at hkeys
  rw [hs] at hlength
  obtain ⟨r', hr', hvalue⟩ := hcall 20 ⟨0⟩ [.i64 3] _ (some (.i64 20)) (by simp) (by simp)
    (Prod.ext rfl hrun)
  obtain ⟨s', hs', hvalue'⟩ := hcall' 20 ⟨0⟩ [.i64 3] _ (some (.i64 20)) (by simp) (by simp)
    (Prod.ext rfl hrun)
  exact ⟨hm, ⟨m', r, hr, Option.some.inj hkeys, hm', r', hr', hvalue ⟨4⟩ _ _ rfl rfl htotal (by simp)⟩,
    n', s, hs, Option.some.inj hlength, hn', s', hs', hvalue' ⟨4⟩ _ _ rfl rfl htotal (by simp)⟩

end SiteFusion
