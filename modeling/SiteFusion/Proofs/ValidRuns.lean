import SiteFusion.Analysis.Validity
import SiteFusion.Proofs.Adequacy
import SiteFusion.Proofs.DominatorTrees

namespace SiteFusion

open List Option

/-- Whether a fault tells of code that is out of order, and not of the values it met. -/
def Fault.isStructural : Fault → Bool
  | .missingBlock _ _ | .missingIncoming _ _ | .undefinedRegister _ _ => true
  | _ => false

namespace Machine

/-- A fault, if there is one, is not the fault of the structure. -/
def Sober {α : Type} (x : Except Fault α) : Prop := ∀ e, x = .error e → e.isStructural = false

namespace Sober

variable {α β : Type}

theorem ok (a : α) : Sober (.ok a : Except Fault α) := fun _ h => nomatch h

theorem error {e : Fault} (h : e.isStructural = false) : Sober (.error e : Except Fault α) :=
  fun _ he => by cases he; exact h

theorem bind {x : Except Fault α} {f : α → Except Fault β} (hx : Sober x)
    (hf : ∀ a, Sober (f a)) : Sober (x >>= f) := by
  cases x with
  | error e => exact error (hx e rfl)
  | ok a => exact hf a

end Sober

theorem sober_binaryInteger (op : BinaryOp) (l r : Int64) : Sober (binaryInteger op l r) := by
  cases op
  case div | rem =>
    unfold binaryInteger
    simp only
    split
    · exact .error rfl
    · exact .ok _
  all_goals first | exact .ok _ | exact .error rfl

theorem sober_binary (op : BinaryOp) (l r : Value) : Sober (binary op l r) := by
  unfold binary
  split
  · unfold binaryFloat
    split <;> first | exact .ok _ | exact .error rfl
  · split
    · exact Sober.bind (sober_binaryInteger op _ _) fun _ => .ok _
    · exact .error rfl

theorem sober_unary (op : UnaryOp) (v : Value) : Sober (unary op v) := by
  unfold unary
  split
  case h_4 | h_5 => split <;> first | exact .ok _ | exact .error rfl
  all_goals first | exact .ok _ | exact .error rfl

theorem sober_compare (op : CompareOp) (l r : Value) : Sober (compare op l r) := by
  unfold compare
  split
  case h_1 => split <;> exact .ok _
  case h_4 | h_5 => split <;> first | exact .ok _ | exact .error rfl
  case h_7 => split <;> first | exact .ok _ | exact .error rfl
  all_goals exact .ok _

theorem sober_cell (memory : Array Value) (v : Value) : Sober (cell memory v) := by
  unfold cell
  split
  · split
    · exact .ok _
    · exact .error rfl
  · exact .error rfl

theorem sober_globalCell (cells : Table GlobalId Nat) (g : GlobalId) :
    Sober (globalCell cells g) := by
  unfold globalCell
  split
  · exact .ok _
  · exact .error rfl

variable {a : Activation}

theorem sober_operand {o : Operand} (h : ∀ r, o.reg? = some r → a.registers.contains r) :
    Sober (a.operand o) := by
  cases o with
  | const c => exact .ok _
  | reg r =>
    obtain ⟨v, hv⟩ := Table.contains_iff.mp (h r rfl)
    simp only [Activation.operand, Activation.get, hv]
    exact .ok v

theorem sober_operands {os : List Operand}
    (h : ∀ r ∈ os.filterMap Operand.reg?, a.registers.contains r) : Sober (a.operands os) := by
  induction os with
  | nil => exact .ok _
  | cons o os ih =>
    have ho : ∀ r, o.reg? = some r → a.registers.contains r :=
      fun r hr => h r (mem_filterMap.mpr ⟨o, by simp, hr⟩)
    refine (sober_operand ho).bind fun v => (ih fun r hr => h r ?_).bind fun vs => .ok _
    obtain ⟨p, hp, hr⟩ := mem_filterMap.mp hr
    exact mem_filterMap.mpr ⟨p, by simp [hp], hr⟩

theorem sober_effect (cells : Table GlobalId Nat) (memory : Array Value) {i : Instruction}
    (h : ∀ r ∈ i.uses, a.registers.contains r) : Sober (effect cells a memory i) := by
  have hop : ∀ o ∈ i.operands, Sober (a.operand o) := fun o ho =>
    sober_operand fun r hr => h r (mem_filterMap.mpr ⟨o, ho, hr⟩)
  cases i with
  | const d c => exact .ok _
  | copy d s => exact (hop s (by simp [Instruction.operands])).bind fun _ => .ok _
  | binary d op l r =>
    exact (hop l (by simp [Instruction.operands])).bind fun _ =>
      (hop r (by simp [Instruction.operands])).bind fun _ =>
        (sober_binary op _ _).bind fun _ => .ok _
  | unary d op o =>
    exact (hop o (by simp [Instruction.operands])).bind fun _ =>
      (sober_unary op _).bind fun _ => .ok _
  | compare d op l r =>
    exact (hop l (by simp [Instruction.operands])).bind fun _ =>
      (hop r (by simp [Instruction.operands])).bind fun _ =>
        (sober_compare op _ _).bind fun _ => .ok _
  | select d c x y =>
    refine (hop c (by simp [Instruction.operands])).bind fun v => ?_
    cases v.truth? with
    | none => exact .error rfl
    | some b =>
      refine (hop (if b then x else y) ?_).bind fun _ => .ok _
      cases b <;> simp [Instruction.operands]
  | alloca d ty => exact .ok _
  | load d p ty =>
    exact (hop p (by simp [Instruction.operands])).bind fun _ =>
      (sober_cell memory _).bind fun _ => .ok _
  | store p v =>
    exact (hop p (by simp [Instruction.operands])).bind fun _ =>
      (sober_cell memory _).bind fun _ =>
        (hop v (by simp [Instruction.operands])).bind fun _ => .ok _
  | loadGlobal d g ty => exact (sober_globalCell cells g).bind fun _ => .ok _
  | storeGlobal g v =>
    exact (sober_globalCell cells g).bind fun _ =>
      (hop v (by simp [Instruction.operands])).bind fun _ => .ok _
  | call d callee args => exact (sober_operands h).bind fun _ => .ok _
  | callIndirect d t args =>
    refine (hop t (by simp [Instruction.operands])).bind fun v => ?_
    have hargs : ∀ r ∈ args.filterMap Operand.reg?, a.registers.contains r := fun r hr => by
      obtain ⟨o, ho, hor⟩ := mem_filterMap.mp hr
      exact h r (mem_filterMap.mpr ⟨o, mem_cons_of_mem _ ho, hor⟩)
    cases v with
    | func callee => exact (sober_operands hargs).bind fun _ => .ok _
    | _ => exact .error rfl
  | inlineAsm d asm ins => exact .error rfl
  | functionRef d callee => exact .ok _
  | marker => exact .ok _

theorem sober_leave {t : Terminator} (h : ∀ r ∈ t.uses, a.registers.contains r) :
    Sober (leave a t) := by
  have hop : ∀ o ∈ t.operands, Sober (a.operand o) := fun o ho =>
    sober_operand fun r hr => h r (mem_filterMap.mpr ⟨o, ho, hr⟩)
  cases t with
  | branch t => exact .ok _
  | condBranch c t e =>
    refine (hop c (by simp [Terminator.operands])).bind fun v => ?_
    cases v.truth? with
    | none => exact .error rfl
    | some b => exact .ok _
  | switch v cases d =>
    refine (hop v (by simp [Terminator.operands])).bind fun v => ?_
    cases v.integer? with
    | none => exact .error rfl
    | some i => exact .ok _
  | ret v =>
    cases v with
    | none => exact .ok _
    | some v => exact (hop v (by simp [Terminator.operands])).bind fun _ => .ok _
  | unreachable => exact .error rfl

end Machine

/-- The parts of validity that a run relies on. -/
structure Function.Checked (m : Module) (f : Function) : Prop where
  entry : f.graph.blocks.contains f.graph.entry
  target : ∀ {k b}, f.graph.block? k = some b → ∀ s ∈ b.successors, f.graph.blocks.contains s
  incoming : ∀ {k b}, f.graph.block? k = some b → ∀ p ∈ b.phis, ∀ q ∈ f.graph.predecessors k,
    ∃ o, p.kind.incomingFor q = some o
  defined : ∀ u ∈ f.useList, ∃ d ∈ f.definitions, d.reg = u.reg ∧
    isBefore (Dominators.ofGraph f.graph) d u = true
  call : ∀ {k b}, f.graph.block? k = some b → ∀ o ∈ b.instructions, ∀ {dest callee args},
    o.kind = .call dest callee args →
      ∃ c, m.function? callee = some c ∧ c.signature.accepts args.length = true

namespace Function

variable {m : Module} {f : Function} {k : BlockId} {b : Block} {key : FuncId} {l : List BlockId}
  {p : Operation Phi} {q : BlockId} {r : Reg} {registers : Machine.Registers} {u : Use}

theorem blockFindings_of_mem {seen : List OpId} {l : List (BlockId × Block)}
    (h : f.blockFindings seen l = []) (hb : (k, b) ∈ l) :
    f.edgeFindings k b = [] ∧ b.phis.flatMap (f.phiFindings k (f.graph.predecessors k)) = [] := by
  induction l generalizing seen with
  | nil => cases hb
  | cons e l ih =>
    obtain ⟨k', b'⟩ := e
    simp only [blockFindings, append_eq_nil_iff] at h
    rcases mem_cons.mp hb with hb | hb
    · cases hb
      exact h.1.1
    · exact ih h.2 hb

theorem contains_of_edgeFindings (h : f.edgeFindings k b = []) {s : BlockId}
    (hs : s ∈ b.successors) : f.graph.blocks.contains s := by
  have hm : s ∈ b.uniqueSuccessors := mem_eraseDups.mpr hs
  have hf := map_eq_nil_iff.mp h
  rw [filter_eq_nil_iff] at hf
  simpa using hf s hm

theorem incomingFor_of_phiFindings {preds : List BlockId} (h : f.phiFindings k preds p = [])
    (hq : q ∈ preds) : ∃ o, p.kind.incomingFor q = some o := by
  have hm := (append_eq_nil_iff.mp h).2
  rw [filterMap_eq_nil_iff] at hm
  have hc : (p.kind.incoming.filter fun e => e.1 = q).length = 1 := by
    by_contra hne
    simpa [hne] using hm q hq
  obtain ⟨e, he⟩ := length_eq_one_iff.mp hc
  have hmem : e ∈ p.kind.incoming.filter fun e => e.1 = q := by simp [he]
  obtain ⟨hei, heq⟩ := mem_filter.mp hmem
  refine ne_none_iff_exists'.mp fun hnone => ?_
  have hl := lookup_eq_none_iff.mp hnone e hei
  simp [of_decide_eq_true heq] at hl

theorem parts_of_findings (h : m.findings = []) (hf : m.function? key = some f)
    (hd : f.isDeclaration = false) :
    f.graph.blocks.contains f.graph.entry ∧ f.entryFindings = [] ∧
      f.blockFindings [] f.graph.blocks.entries = [] ∧ f.registerFindings = [] ∧
      signatureFindings m f = [] := by
  have hff : findings m f = [] :=
    flatMap_eq_nil_iff.mp h f (Table.mem_values_iff.mpr ⟨key, hf⟩)
  simp only [findings, hd, Bool.false_eq_true, ↓reduceIte] at hff
  have hg : f.graphFindings = [] := by
    by_contra hne
    revert hff
    cases hgf : f.graphFindings with
    | nil => exact absurd hgf hne
    | cons x xs => simp
  simp only [hg, append_eq_nil_iff] at hff
  have hentry : f.graph.blocks.contains f.graph.entry := by
    by_contra hne
    simp [graphFindings, hne] at hg
  simp only [graphFindings, hentry, ↓reduceIte, append_eq_nil_iff] at hg
  exact ⟨hentry, hg.1.1, hg.1.2, hff⟩

theorem checked_of_findings (h : m.findings = []) (hf : m.function? key = some f)
    (hd : f.isDeclaration = false) : f.Checked m := by
  obtain ⟨hentry, -, hblocks, hreg, hsig⟩ := parts_of_findings h hf hd
  constructor
  case entry => exact hentry
  case target =>
    intro k b hb s hs
    exact contains_of_edgeFindings (blockFindings_of_mem hblocks (Table.get?_eq_some_iff.mp hb)).1 hs
  case incoming =>
    intro k b hb p hp q hq
    have hphis := (blockFindings_of_mem hblocks (Table.get?_eq_some_iff.mp hb)).2
    exact incomingFor_of_phiFindings (flatMap_eq_nil_iff.mp hphis p hp) hq
  case defined =>
    intro u hu
    have hnone := filterMap_eq_nil_iff.mp (append_eq_nil_iff.mp hreg).2 u hu
    unfold useFinding? at hnone
    split at hnone
    · cases hnone
    · rename_i d hfind
      refine ⟨d, mem_reverse.mp (mem_of_find?_eq_some hfind), ?_, ?_⟩
      · simpa using find?_some hfind
      · by_contra hno
        simp [hno] at hnone
  case call =>
    intro k b hb o ho dest callee args hk
    have hblock := flatMap_eq_nil_iff.mp hsig (k, b) (Table.get?_eq_some_iff.mp hb)
    have hcall := flatMap_eq_nil_iff.mp (append_eq_nil_iff.mp hblock).1 o ho
    simp only [callFindings, hk] at hcall
    split at hcall
    · cases hcall
    · rename_i c hc
      refine ⟨c, hc, ?_⟩
      by_contra hno
      simp [hno] at hcall

theorem mem_blockDefinitions {d : Definition} (h : d ∈ blockDefinitions k b) :
    d.block = k ∧ ((∃ p ∈ b.phis, p.kind.dest = d.reg) ∨
      ∃ i o, b.instructions[i]? = some o ∧ o.kind.dest? = some d.reg ∧ d.rank = i + 2) := by
  rcases mem_append.mp h with h | h
  · obtain ⟨p, hp, rfl⟩ := List.mem_map.mp h
    exact ⟨rfl, .inl ⟨p, hp, rfl⟩⟩
  · obtain ⟨x, hx, rfl⟩ := mem_filterMap.mp h
    obtain ⟨i, hi, hd⟩ := mem_mapIdx.mp hx
    obtain ⟨r, hr, rfl⟩ := map_eq_some_iff.mp hd
    exact ⟨rfl, .inr ⟨i, b.instructions[i], getElem?_eq_getElem hi, hr, rfl⟩⟩

theorem mem_definitions {d : Definition} (h : d ∈ f.definitions) :
    (∃ p ∈ f.signature.params, p.reg = d.reg) ∨ ∃ b, f.graph.block? d.block = some b ∧
      ((∃ p ∈ b.phis, p.kind.dest = d.reg) ∨
        ∃ i o, b.instructions[i]? = some o ∧ o.kind.dest? = some d.reg ∧ d.rank = i + 2) := by
  rcases mem_append.mp h with h | h
  · obtain ⟨p, hp, rfl⟩ := List.mem_map.mp h
    exact .inl ⟨p, hp, rfl⟩
  · obtain ⟨⟨k, b⟩, he, hd⟩ := mem_flatMap.mp h
    obtain ⟨rfl, hd⟩ := mem_blockDefinitions hd
    exact .inr ⟨b, Table.get?_eq_some_iff.mpr he, hd⟩

theorem mem_useList (hb : f.graph.block? k = some b) (hu : u ∈ blockUses k b) : u ∈ f.useList :=
  mem_flatMap.mpr ⟨(k, b), Table.get?_eq_some_iff.mp hb, hu⟩

theorem mem_blockUses_phi (hp : p ∈ b.phis) {o : Operand} (ho : p.kind.incomingFor q = some o)
    (hr : o.reg? = some r) : ⟨r, q, none, p.id⟩ ∈ blockUses k b := by
  obtain ⟨l₁, l₂, hl, -⟩ := List.lookup_eq_some_iff.mp ho
  refine mem_append_left _ (mem_append_left _ (mem_flatMap.mpr ⟨p, hp, ?_⟩))
  exact mem_filterMap.mpr ⟨(q, o), by simp [hl], by simp [hr]⟩

theorem mem_blockUses_instruction {done rest : List (Operation Instruction)}
    {o : Operation Instruction} (hb : b.instructions = done ++ o :: rest) (hr : r ∈ o.kind.uses) :
    ⟨r, k, some (done.length + 2), o.id⟩ ∈ blockUses k b := by
  refine mem_append_left _ (mem_append_right _ (mem_flatten.mpr ?_))
  refine ⟨o.kind.uses.map fun r => ⟨r, k, some (done.length + 2), o.id⟩, ?_,
    List.mem_map_of_mem hr⟩
  rw [mem_mapIdx]
  exact ⟨done.length, by simp [hb], by simp [hb]⟩

theorem mem_blockUses_terminator (hr : r ∈ b.terminator.kind.uses) :
    ⟨r, k, none, b.terminator.id⟩ ∈ blockUses k b :=
  mem_append_right _ (List.mem_map.mpr ⟨r, hr, rfl⟩)

/-- What has a value after the blocks `l`: the parameters, and all that the blocks define. -/
structure Covers (f : Function) (l : List BlockId) (registers : Machine.Registers) : Prop where
  params : ∀ p ∈ f.signature.params, registers.contains p.reg
  blocks : ∀ k ∈ l, ∀ b, f.graph.block? k = some b → ∀ r ∈ b.defs, registers.contains r

theorem Covers.mono {registers' : Machine.Registers} (h : f.Covers l registers)
    (hs : ∀ r, registers.contains r → registers'.contains r) : f.Covers l registers' :=
  ⟨fun p hp => hs _ (h.params p hp), fun k hk b hb r hr => hs r (h.blocks k hk b hb r hr)⟩

theorem Checked.contains_of_use (hc : f.Checked m) (hk : f.graph.Keyed) (hu : u ∈ f.useList)
    (w : f.graph.Walk u.block l) (hparams : ∀ p ∈ f.signature.params, registers.contains p.reg)
    (hblocks : ∀ k ∈ l, k ≠ u.block → ∀ b, f.graph.block? k = some b → ∀ r ∈ b.defs,
      registers.contains r)
    (hphis : ∀ b, f.graph.block? u.block = some b → ∀ p ∈ b.phis, registers.contains p.kind.dest)
    (hinsts : ∀ b, f.graph.block? u.block = some b → ∀ (i : Nat) o, b.instructions[i]? = some o →
      (∀ n ∈ u.rank, i + 2 < n) → ∀ r, o.kind.dest? = some r → registers.contains r) :
    registers.contains u.reg := by
  obtain ⟨d, hd, hreg, hbefore⟩ := hc.defined u hu
  rw [← hreg]
  rcases mem_definitions hd with ⟨p, hp, hpr⟩ | ⟨b, hb, hdef⟩
  · rw [← hpr]
    exact hparams p hp
  · unfold isBefore at hbefore
    by_cases he : d.block = u.block
    · rw [if_pos he] at hbefore
      rw [he] at hb
      rcases hdef with ⟨p, hp, hpr⟩ | ⟨i, o, ho, hor, hrank⟩
      · rw [← hpr]
        exact hphis b hb p hp
      · refine hinsts b hb i o ho (fun n hn => ?_) d.reg hor
        rw [mem_def.mp hn, all_some] at hbefore
        have hlt := of_decide_eq_true hbefore
        omega
    · rw [if_neg he] at hbefore
      refine hblocks d.block (Dominators.mem_walk_of_dominates hk w hbefore) he b hb d.reg ?_
      rcases hdef with ⟨p, hp, hpr⟩ | ⟨i, o, ho, hor, -⟩
      · exact mem_append_left _ (List.mem_map.mpr ⟨p, hp, hpr⟩)
      · exact mem_append_right _
          (mem_filterMap.mpr ⟨o, mem_of_getElem? ho, hor⟩)

end Function

/-- Every function and every block is under its own number. -/
structure Module.Keyed (m : Module) : Prop where
  function : ∀ k f, m.function? k = some f → f.id = k
  block : ∀ k f, m.function? k = some f → f.graph.Keyed

theorem Module.keyed_iff {m : Module} : m.Keyed ↔ ∀ e ∈ m.functions.entries, e.2.id = e.1 ∧
    ∀ b ∈ e.2.graph.blocks.entries, b.2.id = b.1 := by
  constructor
  · intro h e he
    have hf : m.function? e.1 = some e.2 := Table.get?_eq_some_iff.mpr he
    exact ⟨h.function _ _ hf, fun b hb => h.block _ _ hf _ _ (Table.get?_eq_some_iff.mpr hb)⟩
  · intro h
    refine ⟨fun k f hf => (h (k, f) (Table.get?_eq_some_iff.mp hf)).1, fun k f hf i b hb => ?_⟩
    exact (h (k, f) (Table.get?_eq_some_iff.mp hf)).2 (i, b) (Table.get?_eq_some_iff.mp hb)

instance (m : Module) : Decidable m.Keyed := decidable_of_iff _ Module.keyed_iff.symm

namespace Machine

/-- What has been done at block `b`, after the blocks `l`. -/
inductive Doing (f : Function) (label : BlockId) (b : Block) (l : List BlockId)
    (registers : Registers) : Task → Prop
  | phis {source : BlockId} {before : List (Operation Phi)} {p : Operation Phi}
      {rest : List (Operation Phi)} {read : List (Reg × Value)} (w : f.graph.Walk source l)
      (edge : label ∈ f.graph.successorsOf source) (hb : b.phis = before ++ p :: rest)
      (hread : read.map Prod.fst = before.map fun q => q.kind.dest) :
      Doing f label b l registers (.phis source p.kind rest read b)
  | body {done rest : List (Operation Instruction)} (hb : b.instructions = done ++ rest)
      (hphis : ∀ p ∈ b.phis, registers.contains p.kind.dest)
      (hdone : ∀ o ∈ done, ∀ r, o.kind.dest? = some r → registers.contains r) :
      Doing f label b l registers (.body rest b.terminator.kind)

/-- The activation came to its block on a way through its function. -/
structure Activation.OnTrack (m : Module) (a : Activation) : Prop where
  function : ∃ key, m.function? key = some a.function
  body : a.function.isDeclaration = false
  progress : ∃ b l, a.function.graph.block? a.label = some b ∧
    a.function.graph.Walk a.label (a.label :: l) ∧ a.function.Covers l a.registers ∧
    Doing a.function a.label b l a.registers a.task

structure State.OnTrack (m : Module) (s : State) : Prop where
  current : s.current.OnTrack m
  callers : ∀ c ∈ s.callers, ∀ v, (resume c v).OnTrack m

variable {m : Module} {cells : Table GlobalId Nat} {a : Activation} {depth : Nat} {e : Fault}
  {f : Function} {o : Operation Instruction} {ps : List Param} {r : Reg} {registers : Registers}
  {s : State} {t : Terminator}

theorem contains_writeAll {l : List (Reg × Value)} :
    (writeAll l registers).contains r = true ↔
      r ∈ l.map Prod.fst ∨ registers.contains r = true := by
  induction l generalizing registers with
  | nil => simp [writeAll]
  | cons e l ih =>
    obtain ⟨d, v⟩ := e
    rw [writeAll, ih, Table.contains_insert, map_cons, mem_cons]
    tauto

theorem contains_bind_of_contains {vs : List Value} (h : registers.contains r) :
    (bind ps vs registers).contains r := by
  induction ps generalizing vs registers with
  | nil => exact h
  | cons p ps ih =>
    cases vs with
    | nil => exact h
    | cons v vs => exact ih (Table.contains_insert.mpr (.inr h))

theorem contains_bind {vs : List Value} (hl : ps.length ≤ vs.length) {p : Param} (hp : p ∈ ps) :
    (bind ps vs registers).contains p.reg := by
  induction ps generalizing vs registers with
  | nil => cases hp
  | cons q ps ih =>
    cases vs with
    | nil => simp at hl
    | cons v vs =>
      rcases mem_cons.mp hp with rfl | hp
      · rw [bind]
        exact contains_bind_of_contains (Table.contains_insert.mpr (.inl rfl))
      · exact ih (by simpa using hl) hp

namespace Activation.OnTrack

variable (h : a.OnTrack m) (hv : m.findings = []) (hk : m.Keyed) {r : Reg} {t : Terminator}
include h hv

theorem checked : a.function.Checked m := by
  obtain ⟨key, hf⟩ := h.function
  exact Function.checked_of_findings hv hf h.body

omit hv in
theorem keyed (hk : m.Keyed) : a.function.graph.Keyed := by
  obtain ⟨key, hf⟩ := h.function
  exact hk.block key a.function hf

include hk

theorem contains_of_instruction {o : Operation Instruction} {rest : List (Operation Instruction)}
    (ht : a.task = .body (o :: rest) t) (hr : r ∈ o.kind.uses) : a.registers.contains r := by
  obtain ⟨b, l, hb, w, hcov, hdo⟩ := h.progress
  rw [ht] at hdo
  cases hdo with
  | @body done _ hi hphis hdone =>
    refine (h.checked hv).contains_of_use (h.keyed hk) (Function.mem_useList hb
      (Function.mem_blockUses_instruction hi hr)) w hcov.params ?_ ?_ ?_
    · intro k hkl hne
      exact hcov.blocks k ((mem_cons.mp hkl).resolve_left hne)
    · intro b' hb' p hp
      obtain rfl : b' = b := by simpa [hb] using hb'.symm
      exact hphis p hp
    · intro b' hb' i o' ho' hlt r' hr'
      obtain rfl : b' = b := by simpa [hb] using hb'.symm
      have hi' : i < done.length := by
        have := hlt (done.length + 2) rfl
        omega
      rw [hi, getElem?_append_left hi'] at ho'
      exact hdone o' (mem_of_getElem? ho') r' hr'

omit hv hk in
theorem covers_of_end (ht : a.task = .body [] t) :
    ∃ l, a.function.graph.Walk a.label (a.label :: l) ∧
      a.function.Covers (a.label :: l) a.registers ∧
      ∃ b, a.function.graph.block? a.label = some b ∧ t = b.terminator.kind := by
  obtain ⟨b, l, hb, w, hcov, hdo⟩ := h.progress
  rw [ht] at hdo
  cases hdo with
  | @body done _ hi hphis hdone =>
    refine ⟨l, w, ⟨hcov.params, fun k hkl b' hb' r hr => ?_⟩, b, hb, rfl⟩
    rcases mem_cons.mp hkl with rfl | hkl
    · obtain rfl : b' = b := by simpa [hb] using hb'.symm
      rcases mem_append.mp hr with hr | hr
      · obtain ⟨p, hp, rfl⟩ := List.mem_map.mp hr
        exact hphis p hp
      · obtain ⟨o, ho, hor⟩ := mem_filterMap.mp hr
        rw [hi, append_nil] at ho
        exact hdone o ho r hor
    · exact hcov.blocks k hkl b' hb' r hr

theorem contains_of_covers {u : Function.Use} (hu : u ∈ a.function.useList) {l : List BlockId}
    (w : a.function.graph.Walk u.block l) (hcov : a.function.Covers l a.registers) :
    a.registers.contains u.reg := by
  refine (h.checked hv).contains_of_use (h.keyed hk) hu w hcov.params
    (fun k hkl _ => hcov.blocks k hkl) ?_ ?_
  · intro b hb p hp
    exact hcov.blocks u.block w.mem b hb _
      (mem_append_left _ (List.mem_map.mpr ⟨p, hp, rfl⟩))
  · intro b hb i o ho _ r hr
    exact hcov.blocks u.block w.mem b hb r
      (mem_append_right _ (mem_filterMap.mpr ⟨o, mem_of_getElem? ho, hr⟩))

theorem contains_of_terminator (ht : a.task = .body [] t) (hr : r ∈ t.uses) :
    a.registers.contains r := by
  obtain ⟨l, w, hcov, b, hb, rfl⟩ := h.covers_of_end ht
  exact h.contains_of_covers hv hk
    (Function.mem_useList hb (Function.mem_blockUses_terminator hr)) w hcov

theorem exists_incoming {source : BlockId} {phi : Phi} {rest : List (Operation Phi)}
    {read : List (Reg × Value)} {block : Block} (ht : a.task = .phis source phi rest read block) :
    ∃ v, (phi.incomingFor source).bind (Regs.value a.registers.get?) = some v := by
  obtain ⟨b, l, hb, w, hcov, hdo⟩ := h.progress
  rw [ht] at hdo
  cases hdo with
  | @phis _ before p _ _ w' edge hphis hread =>
    have hp : p ∈ block.phis := by simp [hphis]
    obtain ⟨o, ho⟩ := (h.checked hv).incoming hb p hp source
      ((h.keyed hk).mem_predecessors.mpr edge)
    rw [ho, bind_some]
    cases o with
    | const c => exact ⟨_, rfl⟩
    | reg r =>
      have hr := h.contains_of_covers hv hk
        (Function.mem_useList hb (Function.mem_blockUses_phi hp ho rfl)) w' hcov
      exact Table.contains_iff.mp hr

end Activation.OnTrack

section Enter

variable {f : Function} {registers : Registers} {label : BlockId} {b : Block} {p : Operation Phi}
  {ps : List (Operation Phi)}

theorem enter_nil (hb : f.graph.block? label = some b) (hp : b.phis = [])
    (source : Option BlockId) :
    enter f registers source label =
      .ok ⟨f, label, .body b.instructions b.terminator.kind, registers⟩ := by
  simp [enter, hb, hp]

theorem enter_cons (hb : f.graph.block? label = some b) (hp : b.phis = p :: ps)
    (source : BlockId) :
    enter f registers (some source) label =
      .ok ⟨f, label, .phis source p.kind ps [] b, registers⟩ := by
  simp [enter, hb, hp]

theorem enter_first (hb : f.graph.block? label = some b) (hp : b.phis = p :: ps) :
    enter f registers none label = .error (.missingIncoming f.name label) := by
  simp [enter, hb, hp]

end Enter

theorem exists_enter (hf : ∃ key, m.function? key = some f) (hd : f.isDeclaration = false)
    (hc : f.Checked m) {source label : BlockId} {l : List BlockId} (w : f.graph.Walk source l)
    (edge : label ∈ f.graph.successorsOf source) (hcov : f.Covers l registers) :
    ∃ b, enter f registers (some source) label = .ok b ∧ b.OnTrack m := by
  obtain ⟨block, hblock, hs⟩ := Graph.mem_successorsOf.mp edge
  have hcont := hc.target hblock label hs
  obtain ⟨next, hnext⟩ := Table.contains_iff.mp hcont
  cases hp : next.phis with
  | nil =>
    refine ⟨_, enter_nil hnext hp _, hf, hd, next, l, hnext, w.step edge hcont, hcov, ?_⟩
    exact .body (nil_append _).symm (by simp [hp]) (by simp)
  | cons p ps =>
    refine ⟨_, enter_cons hnext hp _, hf, hd, next, l, hnext, w.step edge hcont, hcov, ?_⟩
    exact .phis w edge (hp.trans (nil_append _).symm) rfl

theorem invoke_cases (m : Module) (depth : Nat) (id : FuncId) (args : List Value) :
    (∃ e, invoke m depth id args = .error e ∧ e.isStructural = false) ∨
      ∃ f, m.function? id = some f ∧ f.isDeclaration = false ∧
        f.signature.params.length ≤ args.length ∧
        invoke m depth id args =
          enter f (bind f.signature.params args .empty) none f.graph.entry := by
  unfold invoke
  cases m.function? id with
  | none => exact .inl ⟨_, rfl, rfl⟩
  | some f =>
    simp only
    split
    · exact .inl ⟨_, rfl, rfl⟩
    · rename_i hd
      split
      · exact .inl ⟨_, rfl, rfl⟩
      · rename_i hargs
        split
        · exact .inl ⟨_, rfl, rfl⟩
        · refine .inr ⟨f, rfl, by simpa using hd, ?_, rfl⟩
          by_contra hlt
          exact hargs ⟨by omega, fun hva => by omega⟩

theorem invoke_onTrack (hv : m.findings = []) {id : FuncId} {args : List Value}
    (h : invoke m depth id args = .ok a) : a.OnTrack m := by
  rcases invoke_cases m depth id args with ⟨e, he, -⟩ | ⟨f, hf, hd, hargs, henter⟩
  · rw [h] at he
    cases he
  · rw [henter] at h
    have hc := Function.checked_of_findings hv hf hd
    have hcov : f.Covers [] (bind f.signature.params args .empty) :=
      ⟨fun p hp => contains_bind hargs hp, by simp⟩
    obtain ⟨b, hb⟩ := Table.contains_iff.mp hc.entry
    cases hp : b.phis with
    | nil =>
      rw [enter_nil hb hp] at h
      cases h
      refine ⟨⟨id, hf⟩, hd, b, [], hb, .start hc.entry, hcov, ?_⟩
      exact .body (nil_append _).symm (by simp [hp]) (by simp)
    | cons p ps =>
      rw [enter_first hb hp] at h
      cases h

theorem invoke_error (hv : m.findings = []) {id : FuncId} {args : List Value}
    (h : invoke m depth id args = .error e) (he : e.isStructural = true) :
    ∃ f, m.function? id = some f ∧ e = .missingIncoming f.name f.graph.entry := by
  rcases invoke_cases m depth id args with ⟨e', he', hs⟩ | ⟨f, hf, hd, -, henter⟩
  · rw [h] at he'
    cases he'
    rw [hs] at he
    cases he
  · rw [henter] at h
    have hc := Function.checked_of_findings hv hf hd
    obtain ⟨b, hb⟩ := Table.contains_iff.mp hc.entry
    cases hp : b.phis with
    | nil =>
      rw [enter_nil hb hp] at h
      cases h
    | cons p ps =>
      rw [enter_first hb hp] at h
      cases h
      exact ⟨f, hf, rfl⟩

theorem stepPhi_onTrack (h : a.OnTrack m) (hv : m.findings = []) (hk : m.Keyed)
    {source : BlockId} {phi : Phi} {rest : List (Operation Phi)} {read : List (Reg × Value)}
    {block : Block} (ht : a.task = .phis source phi rest read block) :
    ∃ b, stepPhi a source phi rest read block = .ok b ∧ b.OnTrack m := by
  obtain ⟨v, hval⟩ := h.exists_incoming hv hk ht
  obtain ⟨b, l, hb, w, hcov, hdo⟩ := h.progress
  rw [ht] at hdo
  cases hdo with
  | @phis _ before p _ _ w' edge hphis hread =>
    cases rest with
    | cons q rest =>
      rw [stepPhi_cons q rest read block hval]
      refine ⟨_, rfl, h.function, h.body, block, l, hb, w, hcov, ?_⟩
      have hphis' : block.phis = (before ++ [p]) ++ q :: rest := by simp [hphis]
      exact .phis w' edge hphis' (by simp [hread])
    | nil =>
      rw [stepPhi_nil read block hval]
      have hs : ∀ r, a.registers.contains r →
          (writeAll (read ++ [(p.kind.dest, v)]) a.registers).contains r :=
        fun r hr => contains_writeAll.mpr (.inr hr)
      refine ⟨_, rfl, h.function, h.body, block, l, hb, w, hcov.mono hs, ?_⟩
      refine .body (nil_append _).symm (fun q hq => contains_writeAll.mpr (.inl ?_)) (by simp)
      rw [hphis] at hq
      rw [map_append, hread]
      rcases mem_append.mp hq with hq | hq
      · exact mem_append_left _ (List.mem_map.mpr ⟨q, hq, rfl⟩)
      · rw [mem_singleton.mp hq]
        simp

theorem Activation.OnTrack.resume (h : a.OnTrack m) {rest : List (Operation Instruction)}
    (ht : a.task = .body (o :: rest) t) (v : Option Value) :
    (resume ⟨{ a with task := .body rest t }, o.kind.dest?⟩ v).OnTrack m := by
  obtain ⟨b, l, hb, w, hcov, hdo⟩ := h.progress
  rw [ht] at hdo
  cases hdo with
  | @body done _ hi hphis hdone =>
    have hi' : b.instructions = (done ++ [o]) ++ rest := by simp [hi]
    cases hd : o.kind.dest? with
    | none =>
      refine ⟨h.function, h.body, b, l, hb, w, hcov, .body hi' hphis fun o' ho' r hr => ?_⟩
      rcases mem_append.mp ho' with ho' | ho'
      · exact hdone o' ho' r hr
      · rw [mem_singleton.mp ho', hd] at hr
        cases hr
    | some d =>
      have hs : ∀ r, a.registers.contains r →
          (a.registers.insert d (v.getD .undefined)).contains r :=
        fun r hr => Table.contains_insert.mpr (.inr hr)
      refine ⟨h.function, h.body, b, l, hb, w, hcov.mono hs, .body hi'
        (fun p hp => hs _ (hphis p hp)) fun o' ho' r hr => ?_⟩
      rcases mem_append.mp ho' with ho' | ho'
      · exact hs r (hdone o' ho' r hr)
      · rw [mem_singleton.mp ho', hd] at hr
        exact Table.contains_insert.mpr (.inl (Option.some.inj hr).symm)

theorem Activation.OnTrack.exists_goto (h : a.OnTrack m) (hv : m.findings = [])
    (ht : a.task = .body [] t) {target : BlockId} (hl : leave a t = .ok (.goto target)) :
    ∃ b, enter a.function a.registers (some a.label) target = .ok b ∧ b.OnTrack m := by
  obtain ⟨l, w, hcov, b, hb, rfl⟩ := h.covers_of_end ht
  have hs : target ∈ b.successors := by
    apply mem_successors_of_goto (ρ := a.registers.get?)
    rw [← leave_toOption, hl]
    rfl
  exact exists_enter h.function h.body (h.checked hv) w
    (Graph.mem_successorsOf.mpr ⟨b, hb, hs⟩) hcov

/-- The fault of a step: that of an instruction or a terminator that met unfit values, or that of
a function that could not be opened. -/
theorem step_error (h : s.OnTrack m) (hv : m.findings = []) (hk : m.Keyed) {memory : Array Value}
    (hs : step m cells s = .halted (.error e) memory) :
    e.isStructural = false ∨ ∃ o rest t d callee args,
      s.current.task = .body (o :: rest) t ∧
      effect cells { s.current with task := .body rest t } s.memory o.kind =
        .ok (.call d callee args) ∧
      invoke m (s.callers.length + 1) callee args = .error e := by
  unfold step at hs
  split at hs
  · rename_i source phi rest read block ht
    obtain ⟨b, hb, -⟩ := stepPhi_onTrack h.current hv hk ht
    rw [hb] at hs
    cases hs
  · rename_i o rest t ht
    have hsober : Sober (effect cells { s.current with task := .body rest t } s.memory o.kind) :=
      sober_effect cells s.memory fun r hr => h.current.contains_of_instruction hv hk ht hr
    cases heff : effect cells { s.current with task := .body rest t } s.memory o.kind with
    | error e' =>
      simp only [stepInstruction, heff] at hs
      cases hs
      exact .inl (hsober e heff)
    | ok eff =>
      cases eff with
      | call d callee args =>
        simp only [stepInstruction, heff] at hs
        split at hs
        · rename_i e' he'
          cases hs
          exact .inr ⟨o, rest, t, d, callee, args, ht, heff, he'⟩
        · cases hs
      | _ =>
        simp only [stepInstruction, heff] at hs
        cases hs
  · rename_i t ht
    have hsober : Sober (leave s.current t) :=
      sober_leave fun r hr => h.current.contains_of_terminator hv hk ht hr
    cases hl : leave s.current t with
    | error e' =>
      simp only [stepTerminator, hl] at hs
      cases hs
      exact .inl (hsober e hl)
    | ok exit =>
      cases exit with
      | goto target =>
        obtain ⟨b, hb, -⟩ := h.current.exists_goto hv ht hl
        simp only [stepTerminator, hl, hb] at hs
        cases hs
      | back v =>
        simp only [stepTerminator, hl] at hs
        split at hs <;> cases hs

theorem step_onTrack {s' : State} (h : s.OnTrack m) (hv : m.findings = []) (hk : m.Keyed)
    (hs : step m cells s = .running s') : s'.OnTrack m := by
  unfold step at hs
  split at hs
  · rename_i source phi rest read block ht
    obtain ⟨b, hb, hon⟩ := stepPhi_onTrack h.current hv hk ht
    rw [hb] at hs
    cases hs
    exact ⟨hon, h.callers⟩
  · rename_i o rest t ht
    have hres := h.current.resume ht
    cases heff : effect cells { s.current with task := .body rest t } s.memory o.kind with
    | error e => simp [stepInstruction, heff] at hs
    | ok eff =>
      have hdest := dest?_of_effect heff
      cases eff with
      | call d callee args =>
        simp only [stepInstruction, heff] at hs
        split at hs
        · cases hs
        · rename_i b hb
          cases hs
          refine ⟨invoke_onTrack hv hb, fun c hc v => ?_⟩
          rcases mem_cons.mp hc with rfl | hc
          · rw [show d = o.kind.dest? from hdest]
            exact hres v
          · exact h.callers c hc v
      | define d v =>
        simp only [stepInstruction, heff] at hs
        cases hs
        have hd := hres (some v)
        rw [← hdest] at hd
        exact ⟨hd, h.callers⟩
      | allocate d v =>
        simp only [stepInstruction, heff] at hs
        cases hs
        have hd := hres (some (.ptr s.memory.size))
        rw [← hdest] at hd
        exact ⟨hd, h.callers⟩
      | write | nothing =>
        simp only [stepInstruction, heff] at hs
        cases hs
        have hd := hres none
        rw [← hdest] at hd
        exact ⟨hd, h.callers⟩
  · rename_i t ht
    cases hl : leave s.current t with
    | error e => simp [stepTerminator, hl] at hs
    | ok exit =>
      cases exit with
      | goto target =>
        obtain ⟨b, hb, hon⟩ := h.current.exists_goto hv ht hl
        simp only [stepTerminator, hl, hb] at hs
        cases hs
        exact ⟨hon, h.callers⟩
      | back v =>
        simp only [stepTerminator, hl] at hs
        split at hs
        · cases hs
        · rename_i c callers hc
          cases hs
          refine ⟨h.callers c (by simp [hc]) v, fun c' hc' => h.callers c' (by simp [hc, hc'])⟩

/-- A state comes up in the run of a call, whatever the budget. -/
inductive Visits (machine : Machine) (id : FuncId) (args : List Value) : State → Prop
  | start {a : Activation} (h : invoke machine.module 0 id args = .ok a) :
      Visits machine id args ⟨a, [], machine.memory⟩
  | step {s s' : State} (h : Visits machine id args s)
      (hs : Machine.step machine.module machine.cells s = .running s') : Visits machine id args s'

/-- A function is to be opened in the run of a call, with a number of activations open: by the call
itself, or by an instruction. -/
inductive Opens (machine : Machine) (id : FuncId) (args : List Value) :
    Nat → FuncId → List Value → Prop
  | outer : Opens machine id args 0 id args
  | inner {s : State} {o : Operation Instruction} {rest : List (Operation Instruction)}
      {t : Terminator} {d : Option Reg} {callee : FuncId} {vs : List Value}
      (h : Visits machine id args s) (ht : s.current.task = .body (o :: rest) t)
      (he : effect machine.cells { s.current with task := .body rest t } s.memory o.kind =
        .ok (.call d callee vs)) :
      Opens machine id args (s.callers.length + 1) callee vs

variable {machine : Machine} {id : FuncId} {args : List Value}

theorem Visits.onTrack (h : Visits machine id args s) (hv : machine.module.findings = [])
    (hk : machine.module.Keyed) : s.OnTrack machine.module := by
  induction h with
  | start h => exact ⟨invoke_onTrack hv h, by simp⟩
  | step _ hs ih => exact step_onTrack ih hv hk hs

theorem exists_last_of_run (n : Nat) (h : Visits machine id args s)
    (hr : (run machine.module machine.cells n s).outcome = .error e) (he : e.isStructural = true) :
    ∃ s' memory, Visits machine id args s' ∧
      step machine.module machine.cells s' = .halted (.error e) memory := by
  induction n generalizing s with
  | zero =>
    cases hr
    cases he
  | succ n ih =>
    unfold run at hr
    split at hr
    · rename_i outcome memory hs
      cases hr
      exact ⟨s, memory, h, hs⟩
    · rename_i s' hs
      exact ih (h.step hs) hr

theorem exists_opens_of_call (hv : machine.module.findings = []) (hk : machine.module.Keyed)
    (h : (machine.call id args).2 = .error e) (he : e.isStructural = true) :
    ∃ n k vs, Opens machine id args n k vs ∧ invoke machine.module n k vs = .error e := by
  unfold call at h
  split at h
  · rename_i e' he'
    cases h
    exact ⟨0, id, args, .outer, he'⟩
  · rename_i a ha
    obtain ⟨s, memory, hs, hstep⟩ := exists_last_of_run machine.budget (.start ha) h he
    rcases step_error (hs.onTrack hv hk) hv hk hstep with hno | ⟨o, rest, t, d, k, vs, ht, heff, hi⟩
    · rw [hno] at he
      cases he
    · exact ⟨_, k, vs, .inner hs ht heff, hi⟩

theorem length_of_operands {os : List Operand} {vs : List Value}
    (h : a.operands os = .ok vs) : vs.length = os.length := by
  induction os generalizing vs with
  | nil =>
    cases h
    rfl
  | cons o os ih =>
    rw [Activation.operands] at h
    cases hv : a.operand o with
    | error e => rw [hv] at h; cases h
    | ok v =>
      cases hvs : a.operands os with
      | error e => rw [hv, hvs] at h; cases h
      | ok ws =>
        rw [hv, hvs] at h
        cases h
        simp [ih hvs]

theorem invoke_of_accepts {vs : List Value} (hf : m.function? id = some f)
    (ha : f.signature.accepts vs.length = true) (h : invoke m depth id vs = .error e) :
    (∀ name, e ≠ .unknownFunction name) ∧ ∀ name n k, e ≠ .argumentCount name n k := by
  unfold invoke at h
  simp only [hf] at h
  split at h
  · cases h
    simp
  · split at h
    · rename_i hargs
      unfold Signature.accepts at ha
      split at ha
      · rename_i hva
        have hle := of_decide_eq_true ha
        exact absurd ⟨hva, by omega⟩ hargs.2
      · exact absurd (of_decide_eq_true ha) hargs.1
    · split at h
      · cases h
        simp
      · unfold enter at h
        split at h
        · cases h
          simp
        · split at h <;> cases h
          simp

theorem Activation.OnTrack.accepts (h : a.OnTrack m) (hv : m.findings = [])
    {rest : List (Operation Instruction)} (ht : a.task = .body (o :: rest) t) {d : Option Reg}
    {callee : FuncId} {operands : List Operand} (ho : o.kind = .call d callee operands) :
    ∃ c, m.function? callee = some c ∧ c.signature.accepts operands.length = true := by
  obtain ⟨b, l, hb, -, -, hdo⟩ := h.progress
  rw [ht] at hdo
  cases hdo with
  | body hi _ _ => exact (h.checked hv).call hb o (by simp [hi]) ho

/-- Valid code does not get lost. Neither does a call end at a missing block or register, nor at a
phi without a value, but for those in the first block of a function that is being opened; and a
direct call that is carried out is not turned down for its function or its arguments. -/
theorem call_faults_of_valid (machine : Machine) (hk : machine.module.Keyed)
    (hv : machine.module.findings = []) (id : FuncId) (args : List Value) :
    (∀ name b, (machine.call id args).2 ≠ .error (.missingBlock name b)) ∧
    (∀ name r, (machine.call id args).2 ≠ .error (.undefinedRegister name r)) ∧
    (∀ name b, (machine.call id args).2 = .error (.missingIncoming name b) →
      ∃ n k g vs, Opens machine id args n k vs ∧
        invoke machine.module n k vs = .error (.missingIncoming name b) ∧
        machine.module.function? k = some g ∧ g.name = name ∧ g.graph.entry = b) ∧
    ∀ s, Visits machine id args s → ∀ op d callee operands tags rest t vs,
      s.current.task = .body (⟨op, .call d callee operands, tags⟩ :: rest) t →
      s.current.operands operands = .ok vs →
      ∀ e, invoke machine.module (s.callers.length + 1) callee vs = .error e →
        (∀ name, e ≠ .unknownFunction name) ∧ ∀ name n k, e ≠ .argumentCount name n k := by
  have hopen : ∀ e, (machine.call id args).2 = .error e → e.isStructural = true →
      ∃ n k g vs, Opens machine id args n k vs ∧ invoke machine.module n k vs = .error e ∧
        machine.module.function? k = some g ∧ e = .missingIncoming g.name g.graph.entry := by
    intro e h he
    obtain ⟨n, k, vs, ho, hi⟩ := exists_opens_of_call hv hk h he
    obtain ⟨g, hg, hge⟩ := invoke_error hv hi he
    exact ⟨n, k, g, vs, ho, hi, hg, hge⟩
  refine ⟨fun name b h => ?_, fun name r h => ?_, fun name b h => ?_, ?_⟩
  · obtain ⟨n, k, g, vs, -, -, -, hge⟩ := hopen _ h rfl
    cases hge
  · obtain ⟨n, k, g, vs, -, -, -, hge⟩ := hopen _ h rfl
    cases hge
  · obtain ⟨n, k, g, vs, ho, hi, hg, hge⟩ := hopen _ h rfl
    cases hge
    exact ⟨n, k, g, vs, ho, hi, hg, rfl, rfl⟩
  · intro s hs op d callee operands tags rest t vs ht hops e he
    obtain ⟨c, hc, hacc⟩ := (hs.onTrack hv hk).current.accepts hv ht rfl
    rw [← length_of_operands hops] at hacc
    exact invoke_of_accepts hc hacc he

/-- A function that gives its argument back, and one that calls it in a loop until the result is the
value that went in. -/
def roundabout : Module where
  name := "roundabout"
  functions := .ofList [
    (⟨0⟩, { Function.create ⟨0⟩ "same" [("x", .i64)] .i64 with
      graph := ⟨.ofList [
        (⟨0⟩, ⟨⟨0⟩, none, [], [], .plain ⟨0⟩ (.ret (some (.reg ⟨0⟩)))⟩)], ⟨0⟩, 1, 1⟩ }),
    (⟨1⟩, { Function.create ⟨1⟩ "main" [("n", .i64)] .i64 with
      nextReg := 4
      graph := ⟨.ofList [
        (⟨0⟩, ⟨⟨0⟩, none, [], [], .plain ⟨0⟩ (.branch ⟨1⟩)⟩),
        (⟨1⟩, ⟨⟨1⟩, none,
          [.plain ⟨1⟩ ⟨⟨1⟩, [(⟨0⟩, .reg ⟨0⟩), (⟨1⟩, .reg ⟨2⟩)], .i64⟩],
          [.plain ⟨2⟩ (.call (some ⟨2⟩) ⟨0⟩ [.reg ⟨1⟩]),
            .plain ⟨3⟩ (.compare ⟨3⟩ .eq (.reg ⟨2⟩) (.reg ⟨1⟩))],
          .plain ⟨4⟩ (.condBranch (.reg ⟨3⟩) ⟨2⟩ ⟨1⟩)⟩),
        (⟨2⟩, ⟨⟨2⟩, none, [], [], .plain ⟨5⟩ (.ret (some (.reg ⟨2⟩)))⟩)], ⟨0⟩, 3, 6⟩ })]
  globals := .empty
  nextFunction := 2
  nextGlobal := 0

theorem call_faults_roundabout :
    roundabout.Keyed ∧ roundabout.findings = [] ∧
      ((ofModule roundabout 20).call ⟨1⟩ [.i64 7]).2 = .ok (some (.i64 7)) ∧
      ∀ budget args,
        (∀ name b, ((ofModule roundabout budget).call ⟨1⟩ args).2 ≠ .error (.missingBlock name b)) ∧
        ∀ name r,
          ((ofModule roundabout budget).call ⟨1⟩ args).2 ≠ .error (.undefinedRegister name r) := by
  have hk : roundabout.Keyed := by decide +kernel
  have hv : roundabout.findings = [] := by cbv
  refine ⟨hk, hv, by decide +kernel, fun budget args => ?_⟩
  have h := call_faults_of_valid (ofModule roundabout budget) hk hv ⟨1⟩ args
  exact ⟨h.1, h.2.1⟩

end Machine

end SiteFusion
