import SiteFusion.Proofs.LawfulTransforms
import SiteFusion.Proofs.Recodings
import SiteFusion.Proofs.ValidInlining

namespace SiteFusion

open List Option

namespace DeadCode

variable {used used' : List Reg} {f g : Function} {k : BlockId}

/-- A function without what is not among the used registers. -/
def swept (used : List Reg) (f : Function) : Function :=
  { f with graph := f.graph.mapBlocks (sweepBlock used) }

theorem keepsPhi_iff {p : Phi} : keepsPhi used p = true ↔ p.dest ∈ used := contains_iff_mem

theorem keeps_iff {i : Instruction} :
    keeps used i = true ↔ ∀ d ∈ i.dest?, d ∈ used ∨ i.hasEffect = true := by
  unfold keeps
  cases i.dest? <;> simp

theorem swept_swept (h : used ⊆ used') (f : Function) :
    swept used (swept used' f) = swept used f := by
  have hphi : ∀ p : Phi, (keepsPhi used p && keepsPhi used' p) = keepsPhi used p := by
    intro p
    rw [Bool.eq_iff_iff, Bool.and_eq_true, keepsPhi_iff, keepsPhi_iff]
    exact ⟨And.left, fun hp => ⟨hp, h hp⟩⟩
  have hins : ∀ i, (keeps used i && keeps used' i) = keeps used i := by
    intro i
    rw [Bool.eq_iff_iff, Bool.and_eq_true, keeps_iff, keeps_iff]
    exact ⟨And.left, fun hi => ⟨hi, fun d hd => (hi d hd).imp_left fun hd => h hd⟩⟩
  have hblock : ∀ b, sweepBlock used (sweepBlock used' b) = sweepBlock used b := by
    intro b
    simp only [sweepBlock, List.filter_filter, hphi, hins]
  simp only [swept, Graph.mapBlocks, Table.map, Table.mapWithKey, List.map_map]
  simp only [Function.comp_def, hblock]

theorem uses_swept_subset (used : List Reg) (f : Function) : (swept used f).uses ⊆ f.uses := by
  intro r hr
  have hvalues : (swept used f).graph.blockList = f.graph.blockList.map (sweepBlock used) :=
    Table.values_map f.graph.blocks _
  rw [Function.uses, hvalues, flatMap_map] at hr
  obtain ⟨b, hb, hr⟩ := mem_flatMap.mp hr
  refine mem_flatMap.mpr ⟨b, hb, ?_⟩
  simp only [Block.uses, sweepBlock, mem_append, mem_flatMap, mem_filter] at hr ⊢
  rcases hr with (⟨p, hp, hr⟩ | ⟨o, ho, hr⟩) | hr
  · exact .inl (.inl ⟨p, hp.1, hr⟩)
  · exact .inl (.inr ⟨o, ho.1, hr⟩)
  · exact .inr hr

theorem swept_eq_self (h : size (swept used f) = size f) : swept used f = f := by
  have hvalues : (swept used f).graph.blockList = f.graph.blockList.map (sweepBlock used) :=
    Table.values_map f.graph.blocks _
  simp only [size, Function.instructionCount, Function.instructions, hvalues, flatMap_map,
    sweepBlock, ← filter_flatMap] at h
  have hphis := length_filter_le (fun p : Operation Phi => keepsPhi used p.kind)
    (f.graph.blockList.flatMap Block.phis)
  have hins := length_filter_le (fun o : Operation Instruction => keeps used o.kind)
    (f.graph.blockList.flatMap Block.instructions)
  have hphis' : ∀ p ∈ f.graph.blockList.flatMap Block.phis, keepsPhi used p.kind = true :=
    length_filter_eq_length_iff.mp (by omega)
  have hins' : ∀ o ∈ f.graph.blockList.flatMap Block.instructions, keeps used o.kind = true :=
    length_filter_eq_length_iff.mp (by omega)
  have hblocks : f.graph.blocks.map (sweepBlock used) = f.graph.blocks := by
    refine Table.map_eq_self fun k b hb => ?_
    have hmem : b ∈ f.graph.blockList := Table.mem_values_iff.mpr ⟨k, hb⟩
    rw [sweepBlock,
      filter_eq_self.mpr fun p hp => hphis' p (mem_flatMap.mpr ⟨b, hmem, hp⟩),
      filter_eq_self.mpr fun o ho => hins' o (mem_flatMap.mpr ⟨b, hmem, ho⟩)]
  rw [swept, Graph.mapBlocks, hblocks]

theorem settle_eq (n : Nat) (hn : size f < n)
    (h : ∀ used, used ⊆ f.uses → swept used f = swept used g) :
    size (sweep (settle n f)) = size (settle n f) ∧
      settle n f = swept (settle n f).uses.eraseDups g := by
  have hsub : ∀ f : Function, f.uses.eraseDups ⊆ f.uses := fun f r hr => mem_eraseDups.mp hr
  induction n generalizing f with
  | zero => omega
  | succ n ih =>
    unfold settle
    dsimp only
    split
    · next hsize => exact ⟨hsize, (swept_eq_self hsize).symm.trans (h _ (hsub f))⟩
    · next hsize =>
      have hle := size_sweep_le f
      refine ih (by omega) fun used hused => ?_
      have hused' : used ⊆ f.uses := fun r hr => uses_swept_subset _ f (hused hr)
      rw [sweep, ← h used hused']
      exact swept_swept (fun r hr => mem_eraseDups.mpr (hused' hr)) f

theorem eliminate_eq (f : Function) : size (sweep (eliminate f)) = size (eliminate f) ∧
    eliminate f = swept (eliminate f).uses.eraseDups f :=
  settle_eq _ (Nat.lt_succ_self _) fun _ _ => rfl

theorem transform_eq (f : Function) : ∃ r, transform f = .ok (eliminate f, r) := by
  unfold transform
  dsimp only
  split
  · exact ⟨_, rfl⟩
  · exact ⟨_, rfl⟩

theorem transform_eliminate (f : Function) :
    transform (eliminate f) = .ok (eliminate f, .unchanged) := by
  have hsame : eliminate (eliminate f) = eliminate f := by
    rw [eliminate, settle, if_pos (eliminate_eq f).1]
  rw [transform, hsame, Nat.sub_self, if_pos rfl]

end DeadCode

open DeadCode

def Code.sweep (used : List Reg) (c : Code) : Code :=
  ⟨c.phis.filter (keepsPhi used), c.body.filter (keeps used), c.exit⟩

/-- Code without what is not among the used registers, where all registers that are read are. -/
structure Proc.Sweeps (used : List Reg) (p p' : Proc) : Prop where
  params : p'.params = p.params
  varargs : p'.varargs = p.varargs
  entry : p'.entry = p.entry
  code : ∀ k, p'.code k = (p.code k).map (Code.sweep used)
  phi : ∀ {k c}, p'.code k = some c → ∀ q ∈ c.phis, ∀ r ∈ q.uses, r ∈ used
  body : ∀ {k c}, p'.code k = some c → ∀ i ∈ c.body, ∀ r ∈ i.uses, r ∈ used
  exit : ∀ {k c}, p'.code k = some c → ∀ r ∈ c.exit.uses, r ∈ used

theorem DeadCode.sweeps_eliminate (f : Function) :
    f.proc.Sweeps (eliminate f).uses.eraseDups (eliminate f).proc := by
  have heq := (eliminate_eq f).2
  have hread : ∀ {k c}, (eliminate f).proc.code k = some c → ∀ r, (∃ q ∈ c.phis, r ∈ q.uses) ∨
      (∃ i ∈ c.body, r ∈ i.uses) ∨ r ∈ c.exit.uses → r ∈ (eliminate f).uses.eraseDups := by
    intro k c hc r hr
    obtain ⟨b, hb, rfl⟩ := Function.code_eq_some.mp hc
    refine mem_eraseDups.mpr (Table.mem_flatMap_values.mpr ⟨k, b, hb, ?_⟩)
    simp only [Block.code, List.mem_map] at hr
    simp only [Block.uses, mem_append, mem_flatMap]
    rcases hr with ⟨q, ⟨o, ho, rfl⟩, hr⟩ | ⟨i, ⟨o, ho, rfl⟩, hr⟩ | hr
    · exact .inl (.inl ⟨o, ho, hr⟩)
    · exact .inl (.inr ⟨o, ho, hr⟩)
    · exact .inr hr
  refine ⟨?_, ?_, ?_, fun k => ?_, fun hc q hq r hr => hread hc r (.inl ⟨q, hq, hr⟩),
    fun hc i hi r hr => hread hc r (.inr (.inl ⟨i, hi, hr⟩)),
    fun hc r hr => hread hc r (.inr (.inr hr))⟩
  · rw [heq]
    rfl
  · rw [heq]
    rfl
  · rw [heq]
    rfl
  · have hcode : ∀ used, (swept used f).proc.code k = (f.proc.code k).map (Code.sweep used) := by
      intro used
      simp only [Function.proc, swept, Graph.mapBlocks, Graph.block?, Table.get?_map]
      cases f.graph.blocks.get? k with
      | none => rfl
      | some b => simp [Block.code, sweepBlock, Code.sweep, List.filter_map, Function.comp_def]
    rw [← hcode, ← heq]

variable {cells : Table GlobalId Nat} {memory : Array Value} {r : Reg} {used : List Reg}

theorem mem_filter_keepsPhi {qs : List Phi} (hr : r ∈ used) (hq : r ∈ qs.map Phi.dest) :
    r ∈ (qs.filter (keepsPhi used)).map Phi.dest := by
  obtain ⟨q, hmem, rfl⟩ := List.mem_map.mp hq
  exact List.mem_map_of_mem (mem_filter.mpr ⟨hmem, keepsPhi_iff.mpr hr⟩)

theorem mem_filterMap_keeps {is : List Instruction} (hr : r ∈ used)
    (hi : r ∈ is.filterMap Instruction.dest?) :
    r ∈ (is.filter (keeps used)).filterMap Instruction.dest? := by
  obtain ⟨i, hi, hd⟩ := mem_filterMap.mp hi
  refine mem_filterMap.mpr ⟨i, mem_filter.mpr ⟨hi, keeps_iff.mpr fun d hd' => ?_⟩, hd⟩
  cases hd.symm.trans hd'
  exact .inl hr

namespace Proc.Sweeps

variable {used : List Reg} {p p' : Proc} (h : p.Sweeps used p') {k : BlockId} {r : Reg}

include h

theorem code_eq_some {c' : Code} (hc : p'.code k = some c') :
    ∃ c, p.code k = some c ∧ c.sweep used = c' := by
  rw [h.code] at hc
  exact map_eq_some_iff.mp hc

theorem isSome_code : (p'.code k).isSome = (p.code k).isSome := by rw [h.code, isSome_map]

theorem edge_iff {a b : BlockId} : p'.Edge a b ↔ p.Edge a b := by
  constructor
  · rintro ⟨c', hc', hb⟩
    obtain ⟨c, hc, rfl⟩ := h.code_eq_some hc'
    exact ⟨c, hc, hb⟩
  · rintro ⟨c, hc, hb⟩
    exact ⟨c.sweep used, by rw [h.code, hc]; rfl, hb⟩

theorem walk {l : List BlockId} (w : p'.Walk k l) : p.Walk k l := by
  induction w with
  | start he =>
    rw [h.entry, h.isSome_code] at *
    exact .start he
  | step _ he hb ih => exact .step ih (h.edge_iff.mp he) (h.isSome_code ▸ hb)

theorem connected (hp : p.Connected) : p'.Connected where
  entry := by
    rw [h.isSome_code, h.entry]
    exact hp.entry
  root a he := hp.root a (h.entry ▸ h.edge_iff.mp he)
  target he := h.isSome_code.trans (hp.target (h.edge_iff.mp he))
  once hc' q hq := by
    obtain ⟨c, hc, rfl⟩ := h.code_eq_some hc'
    exact hp.once hc q (mem_of_mem_filter hq)
  source hc' q hq a := by
    obtain ⟨c, hc, rfl⟩ := h.code_eq_some hc'
    exact (hp.source hc q (mem_of_mem_filter hq) a).trans h.edge_iff.symm

omit h in
theorem defs {c : Code} (hr : r ∈ used) (hd : r ∈ c.defs) : r ∈ (c.sweep used).defs := by
  rcases mem_append.mp hd with hd | hd
  · exact mem_append_left _ (mem_filter_keepsPhi hr hd)
  · exact mem_append_right _ (mem_filterMap_keeps hr hd)

theorem visible {before before' : List Reg} (hr : r ∈ used) (hb : r ∈ before → r ∈ before')
    (hv : p.Visible k before r) : p'.Visible k before' r := by
  cases hv with
  | param hp => exact .param (h.params ▸ hp)
  | here hm => exact .here (hb hm)
  | @above k' c hne hc hm hd =>
    exact .above hne (by rw [h.code, hc]; rfl) (defs hr hm) fun l w => hd l (h.walk w)

theorem scopes (hp : p.Scoped) : p'.Scoped where
  incoming {k c'} hc' q hq a r hr d' hd' := by
    have hused := h.phi hc' q hq r (mem_filterMap.mpr ⟨_, hr, rfl⟩)
    obtain ⟨c, hc, rfl⟩ := h.code_eq_some hc'
    obtain ⟨d, hd, rfl⟩ := h.code_eq_some hd'
    exact h.visible hused (defs hused) (hp.incoming hc q (mem_of_mem_filter hq) hr hd)
  body {k c'} hc' pre' i post' hi r hr := by
    have hused := h.body hc' i (by rw [hi]; simp) r hr
    obtain ⟨c, hc, rfl⟩ := h.code_eq_some hc'
    obtain ⟨l₁, l₂, hl, hpre, hrest⟩ := filter_eq_append_iff.mp hi
    obtain ⟨m₁, m₂, rfl, hdrop, -, -⟩ := filter_eq_cons_iff.mp hrest
    have hsplit : c.body = (l₁ ++ m₁) ++ i :: m₂ := by rw [hl, append_assoc]
    have hpre' : pre' = (l₁ ++ m₁).filter (keeps used) := by
      rw [filter_append, hpre, filter_eq_nil_iff.mpr hdrop, append_nil]
    refine h.visible hused (fun hm => ?_) (hp.body hc hsplit r hr)
    rw [hpre']
    rcases mem_append.mp hm with hm | hm
    · exact mem_append_left _ (mem_filter_keepsPhi hused hm)
    · exact mem_append_right _ (mem_filterMap_keeps hused hm)
  exit {k c'} hc' r hr := by
    have hused := h.exit hc' r hr
    obtain ⟨c, hc, rfl⟩ := h.code_eq_some hc'
    exact h.visible hused (defs hused) (hp.exit hc r hr)

end Proc.Sweeps

namespace DeadCode

variable {m : Module} {f : Function}

theorem valid_eliminate (hf : f.Valid m) : (eliminate f).Valid m := by
  have h := sweeps_eliminate f
  have heq := (eliminate_eq f).2
  have hvalues : (eliminate f).graph.blockList =
      f.graph.blockList.map (sweepBlock (eliminate f).uses.eraseDups) := by
    conv_lhs => rw [heq]
    exact Table.values_map f.graph.blocks _
  refine ⟨h.connected hf.connected, h.scopes hf.scopes, ?_, ?_, fun t ht => ?_, ?_, ?_⟩
  · refine nodup_iff_count.mpr fun o => Nat.le_trans ?_ (nodup_iff_count.mp hf.ops o)
    rw [Function.opIds, hvalues, flatMap_map]
    exact Table.count_flatMap_le fun b _ => count_opIds_sweepBlock _ b o
  · refine nodup_iff_count.mpr fun r => Nat.le_trans ?_ (nodup_iff_count.mp hf.defs r)
    have hparams : (eliminate f).signature = f.signature := by
      conv_lhs => rw [heq]
      rfl
    rw [Function.defs, Function.defs, hvalues, hparams, flatMap_map, count_append,
      count_append]
    exact Nat.add_le_add_left (Table.count_flatMap_le fun b _ => count_defs_sweepBlock _ b r) _
  · rw [heq] at ht
    obtain ⟨c, hc, he⟩ := hf.trap t ht
    exact ⟨c.sweep _, by rw [h.code, hc, map_some], he⟩
  · intro k c' hc' dest callee args hi
    obtain ⟨c, hc, rfl⟩ := h.code_eq_some hc'
    exact hf.calls hc (mem_of_mem_filter hi)
  · intro k c' hc' v hv
    obtain ⟨c, hc, rfl⟩ := h.code_eq_some hc'
    have hres := hf.returns hc hv
    rw [hres, heq]
    rfl

theorem keyed_eliminate (hk : f.graph.Keyed) : (eliminate f).graph.Keyed := by
  intro k b hb
  rw [(eliminate_eq f).2] at hb
  obtain ⟨b₀, hb₀, rfl⟩ := map_eq_some_iff.mp ((Table.get?_map _ _ k).symm.trans hb)
  exact hk k b₀ hb₀

theorem isDeclaration_eliminate (f : Function) :
    (eliminate f).isDeclaration = f.isDeclaration := by
  rw [(eliminate_eq f).2]
  simp only [Function.isDeclaration, swept, Graph.mapBlocks, Table.map, Table.mapWithKey,
    Table.isEmpty, isEmpty_map]
  rfl

theorem read_of_eliminate {k : BlockId} {b : Block} (hb : (eliminate f).graph.block? k = some b) :
    (∀ q ∈ b.phis, q.kind.dest ∈ (eliminate f).uses) ∧
      ∀ o ∈ b.instructions, ∀ d ∈ o.kind.dest?, o.kind.hasEffect = false →
        d ∈ (eliminate f).uses := by
  rw [(eliminate_eq f).2] at hb
  obtain ⟨b₀, -, rfl⟩ := map_eq_some_iff.mp ((Table.get?_map _ _ k).symm.trans hb)
  refine ⟨fun q hq => ?_, fun o ho d hd he => ?_⟩
  · exact mem_eraseDups.mp (keepsPhi_iff.mp (mem_filter.mp hq).2)
  · rcases keeps_iff.mp (mem_filter.mp ho).2 d hd with h | h
    · exact mem_eraseDups.mp h
    · rw [he] at h
      cases h

end DeadCode

theorem act_of_not_hasEffect {ρ : Regs} {i : Instruction} {o : Outcome} (hi : i.hasEffect = false)
    (h : act cells ρ memory i = some o) :
    ∃ v, o = .plain v memory ∨ ∃ x, o = .plain v (memory.push x) := by
  cases i <;> simp only [Instruction.hasEffect, reduceCtorEq] at hi <;>
    simp only [act, bind_eq_bind, bind_eq_some_iff, Option.some.injEq] at h <;> grind

/-- The registers that are read are kept, and so are all blocks. -/
def Coding.reading (used : List Reg) : Coding :=
  ⟨⟨id, id⟩, (· ∈ used), fun _ => none, fun _ _ => True⟩

section Reading

variable {used : List Reg} {T : Translation} {p p' : Proc} {k : BlockId}

theorem Coding.Phis.swept (hlax : T.lax) {qs : List Phi}
    (h : ∀ q ∈ qs, keepsPhi used q = true → ∀ r ∈ q.uses, r ∈ used) :
    (Coding.reading used).Phis T.lax k qs (qs.filter (keepsPhi used)) := by
  induction qs with
  | nil => exact .nil
  | cons q qs ih =>
    have ht := ih fun q hq => h q (mem_cons_of_mem _ hq)
    by_cases hq : keepsPhi used q = true
    · rw [filter_cons_of_pos hq]
      refine .keep rfl (fun _ _ he => he) rfl (fun s o _ ho => ⟨?_, fun r hr => ?_⟩) ht
      · rw [Coding.reading, Duplicates.Renaming.operand_same]
        exact ho
      · obtain ⟨l₁, l₂, hl, -⟩ := List.lookup_eq_some_iff.mp ho
        exact h q mem_cons_self hq r (mem_filterMap.mpr ⟨(s, o), by simp [hl], hr⟩)
    · rw [filter_cons_of_neg hq]
      exact .drop hlax (fun hd => hq (keepsPhi_iff.mpr hd)) rfl ht

variable (hM : T.pairing.Faithful T.rename) (hφ : T.rename = id) (hlax : T.lax)
  (hg : ∀ g, T.Places g)
  (hpush : ∀ {ι small large}, T.pairing ι small large → ∀ v, T.pairing ι (small.push v) large)

include hM hφ hlax hg hpush

theorem Translation.Body.swept {is : List Instruction}
    (h : ∀ i ∈ is, keeps used i = true → ∀ r ∈ i.uses, r ∈ used) :
    T.Body (.reading used) is (is.filter (keeps used)) := by
  have hsets : ∀ i, (Coding.reading used).Sets i := fun _ _ _ _ hx => by cases hx
  induction is with
  | nil => exact .nil
  | cons i is ih =>
    have ht := ih fun i hi => h i (mem_cons_of_mem _ hi)
    by_cases hi : keeps used i = true
    · rw [filter_cons_of_pos hi]
      refine .keep (.same hM rfl hφ (fun g _ => hg g) (fun o ho r hr => ?_)
        (fun _ _ _ _ he => he) (hsets i)) ht
      exact h i mem_cons_self hi r (mem_filterMap.mpr ⟨o, ho, hr⟩)
    · rw [filter_cons_of_neg hi]
      obtain ⟨d, hd, hdead⟩ : ∃ d ∈ i.dest?, ¬ (d ∈ used ∨ i.hasEffect = true) := by
        simpa only [keeps_iff, not_forall, exists_prop] using hi
      obtain ⟨hunused, hplain⟩ := not_or.mp hdead
      refine .drop ⟨hlax, fun d' hd' => ?_, hsets i, fun {ι small large ρ o} hm ha => ?_⟩ ht
      · cases mem_unique hd hd'
        exact hunused
      · obtain ⟨v, rfl | ⟨x, rfl⟩⟩ := act_of_not_hasEffect (Bool.eq_false_iff.mpr hplain) ha
        · exact ⟨v, small, rfl, hm⟩
        · exact ⟨v, small.push x, rfl, hpush hm x⟩

theorem Proc.Sweeps.recodes (h : p.Sweeps used p') : T.Recodes (.reading used) p p' where
  params := h.params.trans (List.map_id _).symm
  bound _ _ := ⟨fun _ _ he => he, rfl⟩
  varargs := h.varargs
  entry := h.entry
  code {k c} _ hc := by
    have hc' : p'.code k = some (c.sweep used) := by rw [h.code, hc, map_some]
    refine ⟨_, hc', .swept hlax fun q hq hkeep => ?_,
      .swept hM hφ hlax hg hpush fun i hi hkeep => ?_,
      Translation.exits_same rfl (fun o ho r hr => ?_) fun _ _ => trivial⟩
    · exact h.phi hc' q (mem_filter.mpr ⟨hq, hkeep⟩)
    · exact h.body hc' i (mem_filter.mpr ⟨hi, hkeep⟩)
    · exact h.exit hc' r (mem_filterMap.mpr ⟨o, ho, hr⟩)

end Reading

/-- There are cells for all global variables, and for all pointers in memory. -/
structure Machine.Closed (machine : Machine) : Prop where
  cells : ∀ g c, machine.cells.get? g = some c → c < machine.memory.size
  memory : ∀ c, .ptr c ∈ machine.memory → c < machine.memory.size

theorem Machine.closed_placeGlobals {m : Module} {budget : Nat} {gs : List Global}
    (h : Machine.Closed ⟨m, cells, memory, budget⟩) :
    Machine.Closed ⟨m, (placeGlobals gs cells memory).1, (placeGlobals gs cells memory).2,
      budget⟩ := by
  induction gs generalizing cells memory with
  | nil => exact h
  | cons g gs ih =>
    refine ih ⟨fun v c hc => ?_, fun c hc => ?_⟩
    · rw [Table.get?_insert] at hc
      rw [Array.size_push]
      split at hc
      · cases hc
        exact Nat.lt_succ_self _
      · exact Nat.lt_succ_of_lt (h.cells v c hc)
    · rw [Array.size_push]
      rcases Array.mem_push.mp hc with hc | hc
      · exact Nat.lt_succ_of_lt (h.memory c hc)
      · cases hx : g.initializer.getD g.ty.zero <;> rw [hx] at hc <;> cases hc

theorem Machine.closed_ofModule (m : Module) (budget : Nat) : (ofModule m budget).Closed :=
  closed_placeGlobals ⟨fun _ _ h => (some_ne_none _ h.symm).elim,
    fun _ h => (Array.not_mem_empty _ h).elim⟩

/-- All cells of a memory, where they are. -/
def Placing.within (size : Nat) : Placing := fun c => if c < size then some c else none

theorem Placing.within_eq_some {size c d : Nat} :
    Placing.within size c = some d ↔ c < size ∧ c = d := by
  simp [Placing.within]

namespace Machine.Closed

variable {m : Module} {cells : Table GlobalId Nat} {memory : Array Value} {budget : Nat}

theorem moved (h : Closed ⟨m, cells, memory, budget⟩) {v : Value} (hv : v ∈ memory) :
    Moved id (.within memory.size) v v := by
  cases v with
  | ptr c => exact .ptr (if_pos (h.memory c hv))
  | func f => exact .func f
  | _ => exact .data rfl

theorem paired (h : Closed ⟨m, cells, memory, budget⟩) :
    Pairing.onto (.Partial id) (.within memory.size) (.within memory.size) memory memory := by
  refine ⟨⟨fun c d c' d' hc hd hlt => ?_, fun c d hc => ?_⟩, .refl _⟩
  · obtain ⟨-, rfl⟩ := Placing.within_eq_some.mp hc
    obtain ⟨-, rfl⟩ := Placing.within_eq_some.mp hd
    exact hlt
  · obtain ⟨hlt, rfl⟩ := Placing.within_eq_some.mp hc
    exact ⟨memory[c], memory[c], Array.getElem?_eq_getElem hlt, Array.getElem?_eq_getElem hlt,
      h.moved (Array.getElem_mem hlt)⟩

end Machine.Closed

theorem Machine.global?_of_moved {r r' : Machine} {κ : Placing} {name : String} {x : Value}
    (hx : r.global? name = some x) (hptr : ∀ c, x ≠ .ptr c)
    (hg : r'.module.globals = r.module.globals) (hc : r'.cells = r.cells)
    (hm : Pairing.Partial id κ r.memory r'.memory)
    (hκ : ∀ g c, r.cells.get? g = some c → κ c = some c) : r'.global? name = some x := by
  obtain ⟨g, hfind, hx⟩ := bind_eq_some_iff.mp hx
  obtain ⟨c, hcell, hx⟩ := bind_eq_some_iff.mp hx
  obtain ⟨x', y, hx', hy, hxy⟩ := hm.value c c (hκ g.id c hcell)
  cases hx.symm.trans hx'
  refine bind_eq_some_iff.mpr ⟨g, hg ▸ hfind, bind_eq_some_iff.mpr ⟨c, hc ▸ hcell, ?_⟩⟩
  rw [← hxy.eq_of_ne_ptr hptr]
  exact hy

namespace DeadCode

/-- Dead code goes, and nothing else. What is left are the operations with a result that is read
in the end or with an effect. -/
theorem transform_removes_dead {m : Module} {key : FuncId} {f : Function} (hm : m.findings = [])
    (hk : m.Keyed) (hf : m.function? key = some f) :
    ∃ g r, transform f = .ok (g, r) ∧ g = swept g.uses.eraseDups f ∧
      (m.setFunction key g).findings = [] ∧
      (∀ k b, g.graph.block? k = some b → (∀ q ∈ b.phis, q.kind.dest ∈ g.uses) ∧
        ∀ o ∈ b.instructions, ∀ d ∈ o.kind.dest?, o.kind.hasEffect = false → d ∈ g.uses) ∧
      transform g = .ok (g, .unchanged) ∧
      (∀ budget, (Machine.ofModule m budget).Closed ∧
        { Machine.ofModule m budget with module := m.setFunction key g } =
          Machine.ofModule (m.setFunction key g) budget) ∧
      ∀ machine : Machine, machine.module = m → machine.Closed → ∀ callee args r v,
        (∀ c, .ptr c ∉ args) → (∀ c, v ≠ some (.ptr c)) → machine.call callee args = (r, .ok v) →
        ∃ r', { machine with module := m.setFunction key g }.call callee args = (r', .ok v) ∧
          r.budget ≤ r'.budget ∧ ∀ name x, r.global? name = some x → (∀ c, x ≠ .ptr c) →
            r'.global? name = some x := by
  obtain ⟨r, hr⟩ := transform_eq f
  refine ⟨_, r, hr, (eliminate_eq f).2, ?_, fun k b => read_of_eliminate, transform_eliminate f,
    fun budget => ⟨Machine.closed_ofModule m budget, rfl⟩, ?_⟩
  · refine Inline.findings_setFunction hm hk hf ?_ fun hd =>
      ⟨keyed_eliminate (hk.block key f hf), ?_⟩
    · rw [(eliminate_eq f).2]
      rfl
    · exact valid_eliminate (Module.valid_of_findings hm hk hf (isDeclaration_eliminate f ▸ hd))
  · rintro ⟨_, cells, memory, budget⟩ rfl hclosed callee args r v hargs hv hcall
    let M := Pairing.onto (.Partial id) (.within memory.size)
    have hM : M.Faithful id := Pairing.Partial.faithful.onto _
    have hcells : ∀ g c, cells.get? g = some c → ∀ {ι small large}, M ι small large →
        ι c = some c := fun g c hc {ι small large} hm =>
      hm.2 c c (Placing.within_eq_some.mpr ⟨hclosed.cells g c hc, rfl⟩)
    have hsound : (Translation.replace _ key (eliminate f) cells M True).Sound :=
      Translation.sound_replace hM hcells hf (isDeclaration_eliminate f) fun _ =>
        (sweeps_eliminate f).recodes hM rfl trivial (fun g c hc => ⟨c, hc, hcells g c hc⟩)
          fun hm v => ⟨hm.1.pushLeft v, hm.2⟩
    obtain ⟨κ, w, large, left, hres, hle, -, -, hw, hmem⟩ := hsound.call rfl rfl
      (fun p hp => hsound.finds hp) hclosed.paired (Moved.forall₂_of_no_ptr hargs)
      (fun _ _ _ _ _ _ _ _ => .inl rfl) hcall
    refine ⟨_, hw.eq_of_ne_ptr hv ▸ hres, hle, fun name x hx hptr => ?_⟩
    obtain ⟨_, _, hfst⟩ := Machine.exists_call_fst ⟨_, cells, memory, budget⟩ callee args
    rw [hcall] at hfst
    cases hfst
    exact Machine.global?_of_moved hx hptr rfl rfl hmem.1 fun g c hc => hcells g c hc hmem

/-- A loop with a phi that nothing reads, after a chain of results that lead nowhere and a cell that
is never used. -/
def ballast : Function :=
  { Function.create ⟨0⟩ "ballast" [("n", .i64)] .i64 with
    graph := ⟨.ofList [
      (⟨0⟩, ⟨⟨0⟩, none, [], [.plain ⟨0⟩ (.alloca ⟨1⟩ .i64), .plain ⟨1⟩ (.alloca ⟨2⟩ .i64),
          .plain ⟨2⟩ (.store (.reg ⟨2⟩) (.reg ⟨0⟩)), .plain ⟨3⟩ (.const ⟨3⟩ (.i64 5)),
          .plain ⟨4⟩ (.binary ⟨4⟩ .add (.reg ⟨3⟩) (.reg ⟨0⟩))],
        .plain ⟨5⟩ (.branch ⟨1⟩)⟩),
      (⟨1⟩, ⟨⟨1⟩, none, [.plain ⟨6⟩ ⟨⟨5⟩, [(⟨0⟩, .const (.i64 0)), (⟨1⟩, .reg ⟨6⟩)], .i64⟩,
          .plain ⟨7⟩ ⟨⟨7⟩, [(⟨0⟩, .reg ⟨4⟩), (⟨1⟩, .reg ⟨6⟩)], .i64⟩],
        [.plain ⟨8⟩ (.binary ⟨6⟩ .add (.reg ⟨5⟩) (.const (.i64 1))),
          .plain ⟨9⟩ (.compare ⟨8⟩ .lt (.reg ⟨6⟩) (.reg ⟨0⟩))],
        .plain ⟨10⟩ (.condBranch (.reg ⟨8⟩) ⟨1⟩ ⟨2⟩)⟩),
      (⟨2⟩, ⟨⟨2⟩, none, [], [.plain ⟨11⟩ (.load ⟨9⟩ (.reg ⟨2⟩) .i64)],
        .plain ⟨12⟩ (.ret (some (.reg ⟨9⟩)))⟩)], ⟨0⟩, 3, 13⟩
    nextReg := 10 }

def cargo : Module := ⟨"cargo", .ofList [(⟨0⟩, ballast)], .empty, 1, 0⟩

theorem cargo_removed : cargo.findings = [] ∧ size ballast = 10 ∧
    ∃ g r, transform ballast = .ok (g, r) ∧ size g = 6 ∧ (cargo.setFunction ⟨0⟩ g).findings = [] ∧
      transform g = .ok (g, .unchanged) ∧
      ∃ r', (Machine.ofModule (cargo.setFunction ⟨0⟩ g) 40).call ⟨0⟩ [.i64 3] =
        (r', .ok (some (.i64 3))) := by
  have hm : cargo.findings = [] := by cbv
  have hk : cargo.Keyed := by decide
  have hsize : (transform ballast).toOption.map (fun x => size x.1) = some 6 := by cbv
  have hrun : ((Machine.ofModule cargo 40).call ⟨0⟩ [.i64 3]).2 = .ok (some (.i64 3)) := by
    decide +kernel
  refine ⟨hm, rfl, ?_⟩
  have hf : cargo.function? ⟨0⟩ = some ballast := rfl
  obtain ⟨g, r, hg, -, hv, -, hagain, hfresh, hcall⟩ := transform_removes_dead hm hk hf
  rw [hg] at hsize
  obtain ⟨r', hr', -⟩ := hcall _ rfl (hfresh 40).1 ⟨0⟩ [.i64 3] _ (some (.i64 3)) (by simp)
    (by simp) (Prod.ext rfl hrun)
  exact ⟨g, r, hg, Option.some.inj hsize, hv, hagain, r', (hfresh 40).2 ▸ hr'⟩

end DeadCode

end SiteFusion
