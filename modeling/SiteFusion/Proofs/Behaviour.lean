import SiteFusion.Machine.Run
import Mathlib.Data.List.Forall2

namespace SiteFusion

open List Option

structure Code where
  phis : List Phi
  body : List Instruction
  exit : Terminator

structure Proc where
  params : List Reg
  varargs : Bool
  entry : BlockId
  code : BlockId → Option Code

abbrev Program := FuncId → Option Proc

abbrev Regs := Reg → Option Value

def Block.code (b : Block) : Code :=
  ⟨b.phis.map Operation.kind, b.instructions.map Operation.kind, b.terminator.kind⟩

def Function.proc (f : Function) : Proc where
  params := f.signature.params.map Param.reg
  varargs := f.signature.varargs
  entry := f.graph.entry
  code := fun l => (f.graph.block? l).map Block.code

def Module.program (m : Module) : Program := fun id =>
  match m.function? id with
  | none => none
  | some f => if f.isDeclaration then none else some f.proc

theorem Module.program_eq_some {m : Module} {k : FuncId} {p : Proc} : m.program k = some p ↔
    ∃ f, m.function? k = some f ∧ f.isDeclaration = false ∧ f.proc = p := by
  unfold Module.program
  cases m.function? k with
  | none => simp
  | some f => cases hd : f.isDeclaration <;> simp [hd]

namespace Regs

def value (ρ : Regs) : Operand → Option Value
  | .const c => some (.ofConst c)
  | .reg r => ρ r

def put (ρ : Regs) (dest : Option Reg) (v : Option Value) : Regs :=
  match dest with
  | none => ρ
  | some d => fun r => if r = d then some (v.getD .undefined) else ρ r

def bind : List Reg → List Value → Regs → Regs
  | d :: ds, v :: vs, ρ => bind ds vs (ρ.put (some d) (some v))
  | _, _, ρ => ρ

@[simp]
theorem value_const (ρ : Regs) (c : Const) : ρ.value (.const c) = some (.ofConst c) := rfl

@[simp]
theorem value_reg (ρ : Regs) (r : Reg) : ρ.value (.reg r) = ρ r := rfl

@[simp]
theorem put_none (ρ : Regs) (v : Option Value) : ρ.put none v = ρ := rfl

@[simp]
theorem put_self (ρ : Regs) (d : Reg) (v : Option Value) :
    ρ.put (some d) v d = some (v.getD .undefined) := if_pos rfl

theorem put_of_ne {d : Option Reg} {r : Reg} (h : d ≠ some r) (ρ : Regs) (v : Option Value) :
    ρ.put d v r = ρ r := by
  cases d with
  | none => rfl
  | some d => exact if_neg fun hr => h (by rw [hr])

end Regs

/-- What an instruction leads to. -/
inductive Outcome
  | plain (v : Option Value) (memory : Array Value)
  | call (callee : FuncId) (args : List Value)

def act (cells : Table GlobalId Nat) (ρ : Regs) (memory : Array Value) :
    Instruction → Option Outcome
  | .const _ c => some (.plain (some (.ofConst c)) memory)
  | .copy _ s => do
    let v ← ρ.value s
    some (.plain (some v) memory)
  | .binary _ op l r => do
    let l ← ρ.value l
    let r ← ρ.value r
    let v ← (Machine.binary op l r).toOption
    some (.plain (some v) memory)
  | .unary _ op o => do
    let o ← ρ.value o
    let v ← (Machine.unary op o).toOption
    some (.plain (some v) memory)
  | .compare _ op l r => do
    let l ← ρ.value l
    let r ← ρ.value r
    let b ← (Machine.compare op l r).toOption
    some (.plain (some (.bool b)) memory)
  | .select _ c ifTrue ifFalse => do
    let c ← ρ.value c
    let b ← c.truth?
    let v ← ρ.value (if b then ifTrue else ifFalse)
    some (.plain (some v) memory)
  | .alloca _ ty => some (.plain (some (.ptr memory.size)) (memory.push (.ofConst ty.zero)))
  | .load _ p _ => do
    let p ← ρ.value p
    let c ← (Machine.cell memory p).toOption
    some (.plain (some (Machine.loaded memory c)) memory)
  | .store p v => do
    let p ← ρ.value p
    let c ← (Machine.cell memory p).toOption
    let v ← ρ.value v
    some (.plain none (memory.setIfInBounds c v))
  | .loadGlobal _ g _ => do
    let c ← cells.get? g
    some (.plain (some (Machine.loaded memory c)) memory)
  | .storeGlobal g v => do
    let c ← cells.get? g
    let v ← ρ.value v
    some (.plain none (memory.setIfInBounds c v))
  | .call _ callee args => do
    let args ← args.mapM ρ.value
    some (.call callee args)
  | .callIndirect _ target args => do
    let t ← ρ.value target
    match t with
    | .func callee =>
      let args ← args.mapM ρ.value
      some (.call callee args)
    | _ => none
  | .inlineAsm _ _ _ => none
  | .functionRef _ callee => some (.plain (some (.func callee)) memory)
  | .marker => some (.plain none memory)

def leads (ρ : Regs) : Terminator → Option Machine.Exit
  | .branch t => some (.goto t)
  | .condBranch c t e => do
    let c ← ρ.value c
    let b ← c.truth?
    some (.goto (if b then t else e))
  | .switch v cases d => do
    let v ← ρ.value v
    let i ← v.integer?
    some (.goto ((cases.lookup i).getD d))
  | .ret none => some (.back none)
  | .ret (some v) => do
    let v ← ρ.value v
    some (.back (some v))
  | .unreachable => none

/-- A function in the course of its execution. -/
structure Frame where
  label : BlockId
  rest : List Instruction
  exit : Terminator
  regs : Regs

def Frame.resume (a : Frame) (dest : Option Reg) (v : Option Value) : Frame :=
  { a with regs := a.regs.put dest v }

def incomings (ρ : Regs) (source : BlockId) (phis : List Phi) : Option (List Value) :=
  phis.mapM fun p => (p.incomingFor source).bind ρ.value

namespace Proc

def start (p : Proc) (args : List Value) : Option Frame :=
  match p.code p.entry with
  | none => none
  | some c =>
    if c.phis.isEmpty then some ⟨p.entry, c.body, c.exit, Regs.bind p.params args fun _ => none⟩
    else none

def accepts (p : Proc) (n : Nat) : Prop := n = p.params.length ∨ p.varargs ∧ p.params.length < n

theorem start_eq_some {p : Proc} {args : List Value} {a : Frame} :
    p.start args = some a ↔ ∃ c, p.code p.entry = some c ∧ c.phis = [] ∧
      a = ⟨p.entry, c.body, c.exit, Regs.bind p.params args fun _ => none⟩ := by
  unfold start
  cases p.code p.entry with
  | none => simp
  | some c =>
    by_cases hp : c.phis = []
    · simp [hp, eq_comm]
    · simp [hp]

end Proc

/-- A frame that waits for a result. -/
structure Waiting where
  function : FuncId
  frame : Frame
  dest : Option Reg

structure Config where
  function : FuncId
  frame : Frame
  callers : List Waiting
  memory : Array Value

/-- A move of a program, and the number of steps that it takes. -/
inductive Moves (cells : Table GlobalId Nat) (E : Program) : Config → Nat → Config → Prop
  | act {f l i rest t ρ callers memory v memory'}
      (h : act cells ρ memory i = some (.plain v memory')) :
    Moves cells E ⟨f, ⟨l, i :: rest, t, ρ⟩, callers, memory⟩ 1
      ⟨f, ⟨l, rest, t, ρ.put i.dest? v⟩, callers, memory'⟩
  | call {f l i rest t ρ callers memory callee args q b}
      (h : act cells ρ memory i = some (.call callee args)) (hq : E callee = some q)
      (hn : q.accepts args.length) (hd : callers.length + 1 < depthLimit)
      (hs : q.start args = some b) :
    Moves cells E ⟨f, ⟨l, i :: rest, t, ρ⟩, callers, memory⟩ 1
      ⟨callee, b, ⟨f, ⟨l, rest, t, ρ⟩, i.dest?⟩ :: callers, memory⟩
  | goto {f p l t ρ callers memory l' c vs} (hf : E f = some p)
      (h : leads ρ t = some (.goto l')) (hc : p.code l' = some c)
      (hvs : incomings ρ l c.phis = some vs) :
    Moves cells E ⟨f, ⟨l, [], t, ρ⟩, callers, memory⟩ (c.phis.length + 1)
      ⟨f, ⟨l', c.body, c.exit, Regs.bind (c.phis.map Phi.dest) vs ρ⟩, callers, memory⟩
  | back {f l t ρ v w callers memory} (h : leads ρ t = some (.back v)) :
    Moves cells E ⟨f, ⟨l, [], t, ρ⟩, w :: callers, memory⟩ 1
      ⟨w.function, w.frame.resume w.dest v, callers, memory⟩

/-- Any number of moves, and the steps that they take together. -/
inductive Runs (cells : Table GlobalId Nat) (E : Program) : Config → Nat → Config → Prop
  | refl (c : Config) : Runs cells E c 0 c
  | head {c c' d : Config} {k n : Nat} (h : Moves cells E c k c') (hr : Runs cells E c' n d) :
    Runs cells E c (n + k) d

/-- A program is about to end with a result. -/
inductive Ends : Config → Option Value → Array Value → Prop
  | intro {f l t ρ v memory} (h : leads ρ t = some (.back v)) :
    Ends ⟨f, ⟨l, [], t, ρ⟩, [], memory⟩ v memory

def Yields (cells : Table GlobalId Nat) (E : Program) (memory : Array Value) (f : FuncId)
    (args : List Value) (v : Option Value) (memory' : Array Value) (n : Nat) : Prop :=
  ∃ p a c, E f = some p ∧ p.accepts args.length ∧ p.start args = some a ∧
    Runs cells E ⟨f, a, [], memory⟩ n c ∧ Ends c v memory'

namespace Runs

variable {cells : Table GlobalId Nat} {E : Program} {c c' d : Config} {k n : Nat}

theorem one (h : Moves cells E c k d) : Runs cells E c k d := by
  simpa using Runs.head h (.refl d)

theorem trans (hr : Runs cells E c n c') (h : Runs cells E c' k d) : Runs cells E c (k + n) d := by
  induction hr with
  | refl c => exact h
  | head hm _ ih =>
    rw [← Nat.add_assoc]
    exact .head hm (ih h)

/-- A program that follows each move of another one follows its runs. -/
theorem simulate {E' : Program} {R : Config → Config → Prop}
    (hR : ∀ {c d c' k}, R c c' → Moves cells E c k d → ∃ d' m, Runs cells E' c' m d' ∧ R d d')
    (hc : R c c') (h : Runs cells E c n d) : ∃ d' m, Runs cells E' c' m d' ∧ R d d' := by
  induction h generalizing c' with
  | refl _ => exact ⟨c', 0, .refl c', hc⟩
  | head hm _ ih =>
    obtain ⟨c₁, m₁, h₁, hc₁⟩ := hR hc hm
    obtain ⟨d', m₂, h₂, hd⟩ := ih hc₁
    exact ⟨d', m₂ + m₁, h₁.trans h₂, hd⟩

end Runs

theorem Instruction.mapOperands_id (i : Instruction) : i.mapOperands id = i := by
  cases i <;> simp [Instruction.mapOperands]

theorem Terminator.mapOperands_id (t : Terminator) : t.mapOperands id = t := by
  cases t <;> simp [Terminator.mapOperands]

theorem mem_successors_of_goto {ρ : Regs} {t : Terminator} {l : BlockId}
    (h : leads ρ t = some (.goto l)) : l ∈ t.successors := by
  cases t with
  | branch t => simp_all [leads, Terminator.successors]
  | condBranch c t e =>
    simp only [leads, bind_eq_bind, bind_eq_some_iff] at h
    obtain ⟨v, -, b, -, h⟩ := h
    cases b <;> simp_all [Terminator.successors]
  | switch v cases d =>
    simp only [leads, bind_eq_bind, bind_eq_some_iff] at h
    obtain ⟨v, -, i, -, h⟩ := h
    have hl : (cases.lookup i).getD d = l := by simpa using h
    simp only [Terminator.successors, mem_append, List.mem_map, mem_singleton]
    cases hc : cases.lookup i with
    | none => exact .inr (by simpa [hc] using hl.symm)
    | some k =>
      obtain ⟨l₁, l₂, hl₁, -⟩ := List.lookup_eq_some_iff.mp hc
      exact .inl ⟨(i, k), by simp [hl₁], by simpa [hc] using hl⟩
  | ret v =>
    cases v with
    | none => simp [leads] at h
    | some v =>
      simp only [leads, bind_eq_bind, bind_eq_some_iff] at h
      obtain ⟨w, -, h⟩ := h
      simp at h
  | unreachable => simp [leads] at h

theorem incomings_cons {ρ : Regs} {source : BlockId} {phi : Phi} {phis : List Phi}
    {vs : List Value} :
    incomings ρ source (phi :: phis) = some vs ↔ ∃ v ws,
      (phi.incomingFor source).bind ρ.value = some v ∧ incomings ρ source phis = some ws ∧
        vs = v :: ws := by
  unfold incomings
  rw [mapM_cons]
  simp only [bind_eq_bind, bind_eq_some_iff, Option.pure_def, Option.some.injEq]
  constructor
  · rintro ⟨v, hv, ws, hws, rfl⟩
    exact ⟨v, ws, hv, hws, rfl⟩
  · rintro ⟨v, ws, hv, hws, rfl⟩
    exact ⟨v, hv, ws, hws, rfl⟩

end SiteFusion
