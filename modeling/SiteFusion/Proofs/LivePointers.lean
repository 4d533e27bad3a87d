import SiteFusion.Proofs.SweptCode
import SiteFusion.Proofs.ValidRuns

namespace SiteFusion

open List

/-- The value leads to one of the first `n` cells, if it is a pointer. -/
def Value.Below (n : Nat) (v : Value) : Prop := ∀ c, v = .ptr c → c < n

namespace Value

variable {n k : Nat} {v : Value}

theorem Below.mono (h : v.Below n) (hn : n ≤ k) : v.Below k :=
  fun c hc => Nat.lt_of_lt_of_le (h c hc) hn

theorem below_ofConst (c : Const) : (ofConst c).Below n := by
  cases c <;> simp [ofConst, Below]

theorem below_ofWidth (v : Value) (i : Int64) : (v.ofWidth i).Below n := by
  cases v <;> simp [ofWidth, Below]

end Value

namespace Machine

def Fine {α : Type} (P : α → Prop) : Except Fault α → Prop
  | .ok a => P a
  | .error e => ∀ c, e ≠ .notACell (.ptr c)

section Fine

variable {α β : Type} {P : α → Prop} {Q : β → Prop} {x : Except Fault α}

@[simp]
theorem fine_ok {a : α} : Fine P (.ok a) ↔ P a := Iff.rfl

@[simp]
theorem fine_error {e : Fault} : Fine P (.error e) ↔ ∀ c, e ≠ .notACell (.ptr c) := Iff.rfl

theorem Fine.bind {f : α → Except Fault β} (hx : Fine P x) (hf : ∀ a, P a → Fine Q (f a)) :
    Fine Q (x >>= f) := by
  cases x with
  | ok a => exact hf a hx
  | error e => exact hx

theorem Fine.map {f : α → β} (hx : Fine P x) (hf : ∀ a, P a → Q (f a)) : Fine Q (x.map f) := by
  cases x with
  | ok a => exact hf a hx
  | error e => exact hx

end Fine

variable {n k : Nat}

theorem fine_binary (op : BinaryOp) (l r : Value) : Fine (Value.Below n) (binary op l r) := by
  unfold binary
  split
  · cases op <;> simp [binaryFloat, Value.Below]
  · split
    · next a b _ _ =>
      have h : Fine (fun _ => True) (binaryInteger op a b) := by
        unfold binaryInteger
        split
        case h_4 | h_5 => split <;> simp
        all_goals simp
      exact h.map fun i _ => Value.below_ofWidth l i
    · simp

theorem fine_unary (op : UnaryOp) (v : Value) : Fine (Value.Below n) (unary op v) := by
  unfold unary
  split
  case h_4 | h_5 => split <;> simp [Value.below_ofWidth]
  all_goals simp [Value.Below]

theorem fine_compare (op : CompareOp) (l r : Value) : Fine (fun _ => True) (compare op l r) := by
  unfold compare
  split
  case h_1 | h_4 | h_5 | h_7 => split <;> simp
  all_goals simp

def Task.read : Task → List (Reg × Value)
  | .phis _ _ _ read _ => read
  | .body _ _ => []

def Registers.Below (n : Nat) (registers : Registers) : Prop :=
  ∀ r v, registers.get? r = some v → v.Below n

/-- All pointers of an activation lead to one of the first `n` cells. -/
structure Activation.Below (n : Nat) (a : Activation) : Prop where
  registers : a.registers.Below n
  read : ∀ e ∈ a.task.read, e.2.Below n

theorem Registers.Below.insert {registers : Registers} (h : registers.Below n) (r : Reg) {v : Value}
    (hv : v.Below n) : Registers.Below n (registers.insert r v) := by
  intro r' v' hr
  rw [Table.get?_insert] at hr
  split at hr
  · cases hr
    exact hv
  · exact h r' v' hr

theorem below_bind {registers : Registers} (ps : List Param) {vs : List Value}
    (h : registers.Below n) (hvs : ∀ v ∈ vs, v.Below n) :
    Registers.Below n (Machine.bind ps vs registers) := by
  induction ps generalizing vs registers with
  | nil => exact h
  | cons p ps ih =>
    cases vs with
    | nil => exact h
    | cons v vs =>
      have hv := hvs v mem_cons_self
      exact ih (h.insert p.reg hv) fun w hw => hvs w (mem_cons_of_mem v hw)

theorem below_writeAll {registers : Registers} {l : List (Reg × Value)} (h : registers.Below n)
    (hl : ∀ e ∈ l, e.2.Below n) : Registers.Below n (writeAll l registers) := by
  induction l generalizing registers with
  | nil => exact h
  | cons e l ih =>
    have he := hl e mem_cons_self
    exact ih (h.insert e.1 he) fun e' he' => hl e' (mem_cons_of_mem e he')

namespace Activation.Below

variable {a : Activation}

theorem mono (h : a.Below n) (hn : n ≤ k) : a.Below k :=
  ⟨fun r v hr => (h.registers r v hr).mono hn, fun e he => (h.read e he).mono hn⟩

theorem set (h : a.Below n) (r : Reg) {v : Value} (hv : v.Below n) : (a.set r v).Below n :=
  ⟨h.registers.insert r hv, h.read⟩

theorem operand (h : a.Below n) (o : Operand) : Fine (Value.Below n) (a.operand o) := by
  cases o with
  | const c => exact Value.below_ofConst c
  | reg r =>
    simp only [Activation.operand, Activation.get]
    split
    · next v hv => exact h.registers r v hv
    · simp

theorem operands (h : a.Below n) (os : List Operand) :
    Fine (fun vs => ∀ v ∈ vs, v.Below n) (a.operands os) := by
  induction os with
  | nil => simp [Activation.operands]
  | cons o os ih =>
    refine (h.operand o).bind fun v hv => ih.bind fun vs hvs => ?_
    exact forall_mem_cons.mpr ⟨hv, hvs⟩

end Activation.Below

/-- All pointers that an instruction hands on lead to one of the first `n` cells, and it writes to
one of them. -/
def Effect.Below (n : Nat) : Effect → Prop
  | .define _ v | .allocate _ v => v.Below n
  | .write c v => c < n ∧ v.Below n
  | .call _ _ args => ∀ v ∈ args, v.Below n
  | .nothing => True

def Confined (memory : Array Value) : Prop := ∀ v ∈ memory, v.Below memory.size

def CellsBelow (cells : Table GlobalId Nat) (n : Nat) : Prop := ∀ g c, cells.get? g = some c → c < n

variable {m : Module} {cells : Table GlobalId Nat} {memory : Array Value} {a : Activation}
  {f : Function} {registers : Registers}

theorem Confined.loaded (h : Confined memory) (c : Nat) : (loaded memory c).Below memory.size := by
  unfold Machine.loaded
  cases hc : memory[c]? with
  | none => simp [Value.Below]
  | some v => exact h v (Array.mem_of_getElem? hc)

theorem fine_cell {v : Value} (hv : v.Below memory.size) :
    Fine (fun c => v = .ptr c ∧ c < memory.size) (cell memory v) := by
  cases v with
  | ptr c => simp [cell, hv c rfl]
  | _ => simp [cell]

theorem fine_globalCell (hc : CellsBelow cells n) (g : GlobalId) :
    Fine (· < n) (globalCell cells g) := by
  unfold globalCell
  split
  · next c hg => exact hc g c hg
  · simp

theorem fine_effect (hcells : CellsBelow cells memory.size) (hm : Confined memory)
    (ha : a.Below memory.size) (i : Instruction) :
    Fine (Effect.Below memory.size) (effect cells a memory i) := by
  cases i with
  | const d c => exact Value.below_ofConst c
  | copy d s => exact (ha.operand s).bind fun v hv => hv
  | binary d op l r =>
    exact (ha.operand l).bind fun v _ => (ha.operand r).bind fun w _ =>
      (fine_binary op v w).bind fun u hu => hu
  | unary d op o => exact (ha.operand o).bind fun v _ => (fine_unary op v).bind fun u hu => hu
  | compare d op l r =>
    refine (ha.operand l).bind fun v _ => (ha.operand r).bind fun w _ =>
      (fine_compare op v w).bind fun b _ => ?_
    exact fun c hc => by cases hc
  | select d c ifTrue ifFalse =>
    refine (ha.operand c).bind fun v _ => ?_
    split
    · simp
    · next b _ => exact (ha.operand _).bind fun w hw => hw
  | alloca d ty => exact Value.below_ofConst ty.zero
  | load d p ty =>
    exact (ha.operand p).bind fun v hv => (fine_cell hv).bind fun c _ => hm.loaded c
  | store p v =>
    exact (ha.operand p).bind fun q hq => (fine_cell hq).bind fun c hc =>
      (ha.operand v).bind fun w hw => ⟨hc.2, hw⟩
  | loadGlobal d g ty => exact (fine_globalCell hcells g).bind fun c _ => hm.loaded c
  | storeGlobal g v =>
    exact (fine_globalCell hcells g).bind fun c hc => (ha.operand v).bind fun w hw => ⟨hc, hw⟩
  | call d callee args => exact (ha.operands args).bind fun vs hvs => hvs
  | callIndirect d target args =>
    refine (ha.operand target).bind fun v _ => ?_
    split
    · exact (ha.operands args).bind fun vs hvs => hvs
    · simp
  | inlineAsm d text inputs => simp [effect]
  | functionRef d callee => exact fun c hc => by cases hc
  | marker => trivial

theorem fine_leave (ha : a.Below n) (t : Terminator) :
    Fine (fun e => ∀ v, e = .back (some v) → v.Below n) (leave a t) := by
  cases t with
  | branch t => simp [leave]
  | condBranch c t e =>
    refine (ha.operand c).bind fun v _ => ?_
    split
    · simp
    · exact fun w hw => by cases hw
  | switch v cases d =>
    refine (ha.operand v).bind fun v _ => ?_
    split
    · simp
    · exact fun w hw => by cases hw
  | ret v =>
    cases v with
    | none => simp [leave]
    | some v =>
      refine (ha.operand v).bind fun w hw => ?_
      rintro u ⟨⟩
      exact hw
  | unreachable => simp [leave]

theorem fine_enter (h : registers.Below n) (source : Option BlockId) (label : BlockId) :
    Fine (Activation.Below n) (enter f registers source label) := by
  unfold enter
  split
  · simp
  · split
    · exact ⟨h, by simp [Task.read]⟩
    · simp
    · exact ⟨h, by simp [Task.read]⟩

theorem fine_invoke {args : List Value} (h : ∀ v ∈ args, v.Below n) (depth : Nat) (id : FuncId) :
    Fine (Activation.Below n) (invoke m depth id args) := by
  unfold invoke
  split
  · simp
  · next f _ =>
    have hempty : Registers.Below n Table.empty := fun r v hr => by cases hr
    split
    · simp
    · dsimp only
      split
      · simp
      · split
        · simp
        · exact fine_enter (below_bind f.signature.params hempty h) none f.graph.entry

theorem fine_stepPhi (ha : a.Below n) {read : List (Reg × Value)}
    (hread : ∀ e ∈ read, e.2.Below n) (source : BlockId) (phi : Phi) (rest : List (Operation Phi))
    (block : Block) :
    Fine (Activation.Below n) (stepPhi a source phi rest read block) := by
  unfold stepPhi
  split
  · simp
  · next o _ =>
    refine (ha.operand o).bind fun v hv => ?_
    have hall : ∀ e ∈ read ++ [(phi.dest, v)], e.2.Below n := by
      intro e he
      rcases mem_append.mp he with he | he
      · exact hread e he
      · rw [mem_singleton.mp he]
        exact hv
    cases rest with
    | nil => exact ⟨below_writeAll ha.registers hall, by simp [Task.read]⟩
    | cons p rest => exact ⟨ha.registers, hall⟩

theorem below_resume {c : Caller} (h : c.activation.Below n) {result : Option Value}
    (hr : ∀ v, result = some v → v.Below n) : (resume c result).Below n := by
  unfold resume
  split
  · exact h
  · next d _ =>
    refine h.set d ?_
    cases result with
    | none => simp [Value.Below]
    | some v => exact hr v rfl

theorem Confined.push (h : Confined memory) {v : Value} (hv : v.Below memory.size) :
    Confined (memory.push v) := by
  intro w hw
  rw [Array.size_push]
  rcases Array.mem_push.mp hw with hw | rfl
  · exact (h w hw).mono (Nat.le_succ _)
  · exact hv.mono (Nat.le_succ _)

theorem Confined.set (h : Confined memory) (c : Nat) {v : Value} (hv : v.Below memory.size) :
    Confined (memory.setIfInBounds c v) := by
  intro w hw
  rw [Array.size_setIfInBounds]
  rcases Array.mem_or_eq_of_mem_setIfInBounds hw with hw | rfl
  · exact h w hw
  · exact hv

/-- All pointers in a state lead to the cells of its memory. -/
structure State.Confined (s : State) : Prop where
  current : s.current.Below s.memory.size
  callers : ∀ c ∈ s.callers, c.activation.Below s.memory.size
  memory : Machine.Confined s.memory

/-- The end of a run: memory is in order, a result leads to it, and a fault is not about a pointer. -/
structure Ends (outcome : Except Fault (Option Value)) (memory : Array Value) : Prop where
  confined : Confined memory
  fine : Fine (fun r => ∀ v, r = some v → v.Below memory.size) outcome

def Next.Confined (n : Nat) : Next → Prop
  | .running s => s.Confined ∧ n ≤ s.memory.size
  | .halted outcome memory => Ends outcome memory ∧ n ≤ memory.size

variable {s : State}

theorem stepInstruction_confined (hcells : CellsBelow cells s.memory.size) (hs : s.Confined)
    (i : Instruction) :
    (stepInstruction m cells s.current s.callers s.memory i).Confined s.memory.size := by
  have heff := fine_effect hcells hs.memory hs.current i
  unfold stepInstruction
  cases he : effect cells s.current s.memory i with
  | error e =>
    rw [he] at heff
    exact ⟨⟨hs.memory, heff⟩, Nat.le_refl _⟩
  | ok x =>
    rw [he] at heff
    cases x with
    | define d v => exact ⟨⟨hs.current.set d heff, hs.callers, hs.memory⟩, Nat.le_refl _⟩
    | allocate d v =>
      have hle : s.memory.size ≤ (s.memory.push v).size := by simp
      have hnew : (Value.ptr s.memory.size).Below (s.memory.push v).size := by simp [Value.Below]
      exact ⟨⟨(hs.current.mono hle).set d hnew, fun c hc => (hs.callers c hc).mono hle,
        hs.memory.push heff⟩, hle⟩
    | write c v =>
      have hsize : (s.memory.setIfInBounds c v).size = s.memory.size := by simp
      refine ⟨⟨?_, ?_, hs.memory.set c heff.2⟩, hsize.ge⟩
      · rw [hsize]
        exact hs.current
      · rw [hsize]
        exact hs.callers
    | nothing => exact ⟨⟨hs.current, hs.callers, hs.memory⟩, Nat.le_refl _⟩
    | call d callee args =>
      have hopen := fine_invoke (m := m) heff (s.callers.length + 1) callee
      dsimp only
      split
      · next e he =>
        rw [he] at hopen
        exact ⟨⟨hs.memory, hopen⟩, Nat.le_refl _⟩
      · next b hb =>
        rw [hb] at hopen
        exact ⟨⟨hopen, forall_mem_cons.mpr ⟨hs.current, hs.callers⟩, hs.memory⟩, Nat.le_refl _⟩

theorem stepTerminator_confined (hs : s.Confined) (t : Terminator) :
    (stepTerminator s.current s.callers s.memory t).Confined s.memory.size := by
  have hleave := fine_leave hs.current t
  unfold stepTerminator
  cases he : leave s.current t with
  | error e =>
    rw [he] at hleave
    exact ⟨⟨hs.memory, hleave⟩, Nat.le_refl _⟩
  | ok x =>
    rw [he] at hleave
    cases x with
    | goto target =>
      have henter := fine_enter (f := s.current.function) hs.current.registers
        (some s.current.label) target
      dsimp only
      split
      · next e he =>
        rw [he] at henter
        exact ⟨⟨hs.memory, henter⟩, Nat.le_refl _⟩
      · next b hb =>
        rw [hb] at henter
        exact ⟨⟨henter, hs.callers, hs.memory⟩, Nat.le_refl _⟩
    | back result =>
      have hresult : ∀ v, result = some v → v.Below s.memory.size := by
        rintro v rfl
        exact hleave v rfl
      dsimp only
      split
      · exact ⟨⟨hs.memory, hresult⟩, Nat.le_refl _⟩
      · next c callers hc =>
        have hall := hs.callers
        rw [hc, forall_mem_cons] at hall
        exact ⟨⟨below_resume hall.1 hresult, hall.2, hs.memory⟩, Nat.le_refl _⟩

theorem step_confined (hcells : CellsBelow cells s.memory.size) (hs : s.Confined) :
    (step m cells s).Confined s.memory.size := by
  unfold step
  split
  · next source phi rest read block ht =>
    have hread : ∀ e ∈ read, e.2.Below s.memory.size := by
      have h := hs.current.read
      rw [ht] at h
      exact h
    have hphi := fine_stepPhi hs.current hread source phi rest block
    split
    · next e he =>
      rw [he] at hphi
      exact ⟨⟨hs.memory, hphi⟩, Nat.le_refl _⟩
    · next b hb =>
      rw [hb] at hphi
      exact ⟨⟨hphi, hs.callers, hs.memory⟩, Nat.le_refl _⟩
  · next o rest t ht =>
    have hbody : State.Confined ⟨{ s.current with task := .body rest t }, s.callers, s.memory⟩ :=
      ⟨⟨hs.current.registers, by simp [Task.read]⟩, hs.callers, hs.memory⟩
    exact stepInstruction_confined (s := ⟨{ s.current with task := .body rest t }, s.callers, s.memory⟩)
      hcells hbody o.kind
  · next t ht => exact stepTerminator_confined hs t

theorem run_confined (budget : Nat) (hcells : CellsBelow cells s.memory.size) (hs : s.Confined) :
    Ends (run m cells budget s).outcome (run m cells budget s).memory ∧
      s.memory.size ≤ (run m cells budget s).memory.size := by
  induction budget generalizing s with
  | zero => exact ⟨⟨hs.memory, by simp [run]⟩, Nat.le_refl _⟩
  | succ budget ih =>
    have hstep := step_confined (m := m) hcells hs
    unfold run
    cases hn : step m cells s with
    | halted outcome memory =>
      rw [hn] at hstep
      exact hstep
    | running s' =>
      rw [hn] at hstep
      obtain ⟨hends, hle⟩ := ih (fun g c hg => Nat.lt_of_lt_of_le (hcells g c hg) hstep.2) hstep.1
      exact ⟨hends, Nat.le_trans hstep.2 hle⟩

/-- A machine of a module that has run any calls, each with pointers to cells that were there. -/
inductive Reached (m : Module) : Machine → Prop
  | fresh (budget : Nat) : Reached m (ofModule m budget)
  | refill {x : Machine} (h : Reached m x) (budget : Nat) : Reached m { x with budget }
  | call {x : Machine} (h : Reached m x) (id : FuncId) {args : List Value}
      (hargs : ∀ v ∈ args, v.Below x.memory.size) : Reached m (x.call id args).1

theorem contains_placeGlobals (gs : List Global) (cells : Table GlobalId Nat)
    (memory : Array Value) {k : GlobalId}
    (h : k ∈ gs.map Global.id ∨ cells.contains k = true) :
    (placeGlobals gs cells memory).1.contains k = true := by
  induction gs generalizing cells memory with
  | nil => exact h.resolve_left (by simp)
  | cons g gs ih =>
    refine ih _ _ ?_
    rw [Table.contains_insert]
    rcases h with h | h
    · rcases mem_cons.mp h with rfl | h
      · exact .inr (.inl rfl)
      · exact .inl h
    · exact .inr (.inr h)

variable {x : Machine} {id : FuncId} {args : List Value}

theorem Closed.confined (hx : x.Closed) : Confined x.memory :=
  fun _ hv c hc => hx.memory c (hc ▸ hv)

theorem Closed.start (hx : x.Closed) (hargs : ∀ v ∈ args, v.Below x.memory.size)
    (ha : invoke x.module 0 id args = .ok a) : State.Confined ⟨a, [], x.memory⟩ := by
  have hopen := fine_invoke (m := x.module) hargs 0 id
  rw [ha] at hopen
  exact ⟨hopen, by simp, hx.confined⟩

theorem Closed.call (hx : x.Closed) (id : FuncId) (hargs : ∀ v ∈ args, v.Below x.memory.size) :
    Ends (x.call id args).2 (x.call id args).1.memory ∧
      x.memory.size ≤ (x.call id args).1.memory.size := by
  unfold Machine.call
  split
  · next e he =>
    have hopen := fine_invoke (m := x.module) hargs 0 id
    rw [he] at hopen
    exact ⟨⟨hx.confined, hopen⟩, Nat.le_refl _⟩
  · next a ha => exact run_confined x.budget hx.cells (hx.start hargs ha)

theorem cells_call (x : Machine) (id : FuncId) (args : List Value) :
    (x.call id args).1.module = x.module ∧ (x.call id args).1.cells = x.cells := by
  unfold Machine.call
  split
  · exact ⟨rfl, rfl⟩
  · exact ⟨rfl, rfl⟩

theorem Reached.placed (h : Reached m x) :
    x.module = m ∧ x.cells = (placeGlobals m.globals.values .empty #[]).1 := by
  induction h with
  | fresh budget => exact ⟨rfl, rfl⟩
  | refill _ _ ih => exact ih
  | call _ id _ ih =>
    obtain ⟨hm, hc⟩ := cells_call _ id _
    exact ⟨hm.trans ih.1, hc.trans ih.2⟩

theorem Reached.isClosed (h : Reached m x) : x.Closed := by
  induction h with
  | fresh budget => exact closed_ofModule m budget
  | refill _ _ ih => exact ⟨ih.cells, ih.memory⟩
  | call _ id hargs ih =>
    obtain ⟨hends, hle⟩ := ih.call id hargs
    refine ⟨fun g c hg => ?_, fun c hc => hends.confined _ hc c rfl⟩
    rw [(cells_call _ id _).2] at hg
    exact Nat.lt_of_lt_of_le (ih.cells g c hg) hle

theorem Visits.confined (h : Visits x id args s) (hx : x.Closed)
    (hargs : ∀ v ∈ args, v.Below x.memory.size) :
    s.Confined ∧ x.memory.size ≤ s.memory.size := by
  induction h with
  | start ha => exact ⟨hx.start hargs ha, Nat.le_refl _⟩
  | step _ hs ih =>
    have hstep := step_confined (m := x.module)
      (fun g c hg => Nat.lt_of_lt_of_le (hx.cells g c hg) ih.2) ih.1
    rw [hs] at hstep
    exact ⟨hstep.1, Nat.le_trans ih.2 hstep.2⟩

/-- The cell that an instruction reads or writes, if there is one. -/
def accessed (cells : Table GlobalId Nat) (a : Activation) : Instruction → Option Nat
  | .load _ p _ | .store p _ => match a.operand p with
    | .ok (.ptr c) => some c
    | _ => none
  | .loadGlobal _ g _ | .storeGlobal g _ => cells.get? g
  | _ => none

theorem accessed_lt (hcells : CellsBelow cells n) (ha : a.Below n) {i : Instruction} {c : Nat}
    (h : accessed cells a i = some c) : c < n := by
  unfold accessed at h
  split at h
  case h_1 | h_2 =>
    next p _ =>
    split at h
    · next k hp =>
      cases h
      have hv := ha.operand p
      rw [hp] at hv
      exact hv c rfl
    · cases h
  case h_3 | h_4 => exact hcells _ _ h
  case h_5 => cases h

/-- Whatever calls a machine has run, every pointer in its memory leads to a cell, and each global
variable has the cell that it was given at first. In every state of the next call, memory is at least
as large as before and takes in all pointers, those of the activations that wait included. What an
instruction reads or writes is in memory, so that it never fails for its pointer, and neither does the
call. -/
theorem pointers_live (h : Reached m x) (id : FuncId)
    (hargs : ∀ v ∈ args, v.Below x.memory.size) :
    (Confined x.memory ∧ x.module = m ∧ x.cells = (ofModule m x.budget).cells ∧
      ∀ g ∈ m.globals.values, ∃ c, x.cells.get? g.id = some c ∧ c < x.memory.size) ∧
    (∀ s, Visits x id args s → s.Confined ∧ x.memory.size ≤ s.memory.size ∧
      (∀ s', step x.module x.cells s = .running s' → s.memory.size ≤ s'.memory.size) ∧
      ∀ o rest t, s.current.task = .body (o :: rest) t →
        (∀ c, effect x.cells { s.current with task := .body rest t } s.memory o.kind ≠
          .error (.notACell (.ptr c))) ∧
        ∀ c, accessed x.cells s.current o.kind = some c → c < s.memory.size) ∧
    x.memory.size ≤ (x.call id args).1.memory.size ∧
    (∀ c, (x.call id args).2 ≠ .error (.notACell (.ptr c))) ∧
    ∀ v, (x.call id args).2 = .ok (some v) → v.Below (x.call id args).1.memory.size := by
  have hx := h.isClosed
  obtain ⟨hmod, hcells⟩ := h.placed
  obtain ⟨hends, hle⟩ := hx.call id hargs
  refine ⟨⟨hx.confined, hmod, hcells, fun g hg => ?_⟩, fun s hs => ?_, hle, fun c hc => ?_, fun v hv => ?_⟩
  · have hmem := contains_placeGlobals m.globals.values .empty #[]
      (.inl (mem_map_of_mem (f := Global.id) hg))
    rw [← hcells] at hmem
    obtain ⟨c, hc⟩ := Table.contains_iff.mp hmem
    exact ⟨c, hc, hx.cells _ _ hc⟩
  · obtain ⟨hconf, hsize⟩ := hs.confined hx hargs
    have hbelow : CellsBelow x.cells s.memory.size :=
      fun g c hg => Nat.lt_of_lt_of_le (hx.cells g c hg) hsize
    refine ⟨hconf, hsize, fun s' hs' => ?_, fun o rest t ht => ⟨fun c hc => ?_, fun c hc => ?_⟩⟩
    · have hstep := step_confined (m := x.module) hbelow hconf
      rw [hs'] at hstep
      exact hstep.2
    · have ha : Activation.Below s.memory.size { s.current with task := .body rest t } :=
        ⟨hconf.current.registers, by simp [Task.read]⟩
      have heff := fine_effect hbelow hconf.memory ha o.kind
      rw [hc] at heff
      exact heff c rfl
    · exact accessed_lt hbelow hconf.current hc
  · have hfine := hends.fine
    rw [hc] at hfine
    exact hfine c rfl
  · have hfine := hends.fine
    rw [hv] at hfine
    exact hfine v rfl

/-- A function that puts a cell on a shelf, and one that looks into a cell. -/
def parcel : Module :=
  { Module.create "parcel" with
    functions := .ofList [
      (⟨0⟩, { Function.create ⟨0⟩ "wrap" [] (.ptr .i64) with
        graph := ⟨.ofList [
          (⟨0⟩, ⟨⟨0⟩, none, [], [.plain ⟨0⟩ (.alloca ⟨0⟩ .i64),
              .plain ⟨1⟩ (.store (.reg ⟨0⟩) (.const (.i64 7))),
              .plain ⟨2⟩ (.storeGlobal ⟨0⟩ (.reg ⟨0⟩))],
            .plain ⟨3⟩ (.ret (some (.reg ⟨0⟩)))⟩)], ⟨0⟩, 1, 4⟩ }),
      (⟨1⟩, { Function.create ⟨1⟩ "unwrap" [("p", .ptr .i64)] .i64 with
        graph := ⟨.ofList [
          (⟨0⟩, ⟨⟨0⟩, none, [], [.plain ⟨0⟩ (.load ⟨1⟩ (.reg ⟨0⟩) .i64)],
            .plain ⟨1⟩ (.ret (some (.reg ⟨1⟩)))⟩)], ⟨0⟩, 1, 2⟩ })]
    globals := .ofList [(⟨0⟩, ⟨⟨0⟩, "shelf", .ptr .i64, none, true, .internal⟩)]
    nextFunction := 2
    nextGlobal := 1 }

/-- The cell that the first call leaves behind is good for the second. One more would not be. -/
theorem pointers_live_parcel :
    ∃ x, x = ((ofModule parcel 20).call ⟨0⟩ []).1 ∧ x.memory = #[.ptr 1, .i64 7] ∧
      (x.call ⟨1⟩ [.ptr 1]).2 = .ok (some (.i64 7)) ∧
      (x.call ⟨1⟩ [.ptr 2]).2 = .error (.notACell (.ptr 2)) ∧
      ∀ s, Visits x ⟨1⟩ [.ptr 1] s → s.Confined ∧ x.memory.size ≤ s.memory.size := by
  have hmem : ((ofModule parcel 20).call ⟨0⟩ []).1.memory = #[.ptr 1, .i64 7] := by decide +kernel
  refine ⟨_, rfl, hmem, by decide +kernel, by decide +kernel, fun s hs => ?_⟩
  have hfirst : Reached parcel ((ofModule parcel 20).call ⟨0⟩ []).1 :=
    (Reached.fresh 20).call ⟨0⟩ (by simp)
  have hargs : ∀ v ∈ [Value.ptr 1], v.Below ((ofModule parcel 20).call ⟨0⟩ []).1.memory.size := by
    rw [hmem]
    simp [Value.Below]
  obtain ⟨hconf, hsize, -⟩ := (pointers_live hfirst ⟨1⟩ hargs).2.1 s hs
  exact ⟨hconf, hsize⟩

end Machine

end SiteFusion
