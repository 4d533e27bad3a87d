import SiteFusion.Machine.Arithmetic

namespace SiteFusion

/-- A module that is being run, between calls. -/
structure Machine where
  module : Module
  cells : Table GlobalId Nat
  memory : Array Value
  budget : Nat

namespace Machine

abbrev Registers := Table Reg Value

inductive Task
  /-- Read this phi and those that follow. The values that were read are written together. -/
  | phis (source : BlockId) (phi : Phi) (rest : List (Operation Phi)) (read : List (Reg × Value))
      (block : Block)
  | body (rest : List (Operation Instruction)) (terminator : Terminator)

/-- A function in the course of its execution. -/
structure Activation where
  function : Function
  label : BlockId
  task : Task
  registers : Registers

/-- An activation that waits for a result. -/
structure Caller where
  activation : Activation
  dest : Option Reg

structure State where
  current : Activation
  callers : List Caller
  memory : Array Value

inductive Next
  | running (s : State)
  | halted (outcome : Except Fault (Option Value)) (memory : Array Value)

def placeGlobals : List Global → Table GlobalId Nat → Array Value → Table GlobalId Nat × Array Value
  | [], cells, memory => (cells, memory)
  | g :: gs, cells, memory =>
    placeGlobals gs (cells.insert g.id memory.size)
      (memory.push (.ofConst (g.initializer.getD g.ty.zero)))

def defaultBudget : Nat := 1000000

def ofModule (m : Module) (budget : Nat) : Machine :=
  let (cells, memory) := placeGlobals m.globals.values .empty #[]
  ⟨m, cells, memory, budget⟩

def global? (machine : Machine) (name : String) : Option Value := do
  let g ← machine.module.globals.values.find? fun g => g.name = name
  let c ← machine.cells.get? g.id
  machine.memory[c]?

namespace Activation

def get (a : Activation) (r : Reg) : Except Fault Value :=
  match a.registers.get? r with
  | some v => .ok v
  | none => .error (.undefinedRegister a.function.name r)

def operand (a : Activation) : Operand → Except Fault Value
  | .const c => .ok (.ofConst c)
  | .reg r => a.get r

def operands (a : Activation) : List Operand → Except Fault (List Value)
  | [] => .ok []
  | o :: os => do
    let v ← a.operand o
    let vs ← a.operands os
    return v :: vs

def set (a : Activation) (r : Reg) (v : Value) : Activation :=
  { a with registers := a.registers.insert r v }

end Activation

def enter (f : Function) (registers : Registers) (source : Option BlockId) (label : BlockId) :
    Except Fault Activation :=
  match f.graph.block? label with
  | none => .error (.missingBlock f.name label)
  | some b => match b.phis, source with
    | [], _ => .ok ⟨f, label, .body b.instructions b.terminator.kind, registers⟩
    | _ :: _, none => .error (.missingIncoming f.name label)
    | p :: ps, some source => .ok ⟨f, label, .phis source p.kind ps [] b, registers⟩

def bind : List Param → List Value → Registers → Registers
  | p :: ps, v :: vs, registers => bind ps vs (registers.insert p.reg v)
  | _, _, registers => registers

def invoke (m : Module) (depth : Nat) (id : FuncId) (args : List Value) :
    Except Fault Activation :=
  match m.function? id with
  | none => .error (.unknownFunction id.text)
  | some f =>
    if f.isDeclaration then .error (.declaration f.name)
    else
      let expected := f.signature.params.length
      if args.length ≠ expected ∧ ¬ (f.signature.varargs ∧ expected < args.length) then
        .error (.argumentCount f.name expected args.length)
      else if depthLimit ≤ depth then .error .tooDeep
      else enter f (bind f.signature.params args .empty) none f.graph.entry

def cell (memory : Array Value) : Value → Except Fault Nat
  | .ptr c => if c < memory.size then .ok c else .error (.notACell (.ptr c))
  | v => .error (.notACell v)

def globalCell (cells : Table GlobalId Nat) (g : GlobalId) : Except Fault Nat :=
  match cells.get? g with
  | some c => .ok c
  | none => .error (.unknownGlobal g)

/-- The effect of an instruction other than a call: the register it defines, and memory. -/
inductive Effect
  | define (dest : Reg) (v : Value)
  | allocate (dest : Reg) (v : Value)
  | write (cell : Nat) (v : Value)
  | call (dest : Option Reg) (callee : FuncId) (args : List Value)
  | nothing

def loaded (memory : Array Value) (c : Nat) : Value := (memory[c]?).getD .undefined

def effect (cells : Table GlobalId Nat) (a : Activation) (memory : Array Value) :
    Instruction → Except Fault Effect
  | .const d c => .ok (.define d (.ofConst c))
  | .copy d s => do
    let v ← a.operand s
    return .define d v
  | .binary d op l r => do
    let l ← a.operand l
    let r ← a.operand r
    let v ← binary op l r
    return .define d v
  | .unary d op o => do
    let o ← a.operand o
    let v ← unary op o
    return .define d v
  | .compare d op l r => do
    let l ← a.operand l
    let r ← a.operand r
    let b ← compare op l r
    return .define d (.bool b)
  | .select d c ifTrue ifFalse => do
    let c ← a.operand c
    match c.truth? with
    | none => .error (.selectOn c)
    | some b =>
      let v ← a.operand (if b then ifTrue else ifFalse)
      return .define d v
  | .alloca d ty => .ok (.allocate d (.ofConst ty.zero))
  | .load d p _ => do
    let p ← a.operand p
    let c ← cell memory p
    return .define d (loaded memory c)
  | .store p v => do
    let p ← a.operand p
    let c ← cell memory p
    let v ← a.operand v
    return .write c v
  | .loadGlobal d g _ => do
    let c ← globalCell cells g
    return .define d (loaded memory c)
  | .storeGlobal g v => do
    let c ← globalCell cells g
    let v ← a.operand v
    return .write c v
  | .call d callee args => do
    let args ← a.operands args
    return .call d callee args
  | .callIndirect d target args => do
    let t ← a.operand target
    match t with
    | .func callee =>
      let args ← a.operands args
      return .call d callee args
    | v => .error (.notAFunction v)
  | .inlineAsm _ _ _ => .error (.inlineAsm a.function.name)
  | .functionRef d callee => .ok (.define d (.func callee))
  | .marker => .ok .nothing

/-- Where a terminator leads: to another block, or back with a result. -/
inductive Exit
  | goto (target : BlockId)
  | back (result : Option Value)

def leave (a : Activation) : Terminator → Except Fault Exit
  | .branch t => .ok (.goto t)
  | .condBranch c t e => do
    let c ← a.operand c
    match c.truth? with
    | none => .error (.branchOn c)
    | some b => return .goto (if b then t else e)
  | .switch v cases d => do
    let v ← a.operand v
    match v.integer? with
    | none => .error (.switchOn v)
    | some i => return .goto ((cases.lookup i).getD d)
  | .ret none => .ok (.back none)
  | .ret (some v) => do
    let v ← a.operand v
    return .back (some v)
  | .unreachable => .error (.unreachable a.function.name a.label)

def writeAll : List (Reg × Value) → Registers → Registers
  | [], registers => registers
  | (r, v) :: rest, registers => writeAll rest (registers.insert r v)

def resume (c : Caller) (result : Option Value) : Activation :=
  match c.dest with
  | none => c.activation
  | some d => c.activation.set d (result.getD .undefined)

def stepPhi (a : Activation) (source : BlockId) (phi : Phi) (rest : List (Operation Phi))
    (read : List (Reg × Value)) (block : Block) : Except Fault Activation :=
  match phi.incomingFor source with
  | none => .error (.missingIncoming a.function.name a.label)
  | some o => do
    let v ← a.operand o
    let read := read ++ [(phi.dest, v)]
    match rest with
    | p :: rest => return { a with task := .phis source p.kind rest read block }
    | [] =>
      return { a with
        task := .body block.instructions block.terminator.kind
        registers := writeAll read a.registers }

def stepInstruction (m : Module) (cells : Table GlobalId Nat) (a : Activation)
    (callers : List Caller) (memory : Array Value) (i : Instruction) : Next :=
  match effect cells a memory i with
  | .error e => .halted (.error e) memory
  | .ok (.define d v) => .running ⟨a.set d v, callers, memory⟩
  | .ok (.allocate d v) => .running ⟨a.set d (.ptr memory.size), callers, memory.push v⟩
  | .ok (.write c v) => .running ⟨a, callers, memory.setIfInBounds c v⟩
  | .ok .nothing => .running ⟨a, callers, memory⟩
  | .ok (.call d callee args) => match invoke m (callers.length + 1) callee args with
    | .error e => .halted (.error e) memory
    | .ok b => .running ⟨b, ⟨a, d⟩ :: callers, memory⟩

def stepTerminator (a : Activation) (callers : List Caller) (memory : Array Value)
    (t : Terminator) : Next :=
  match leave a t with
  | .error e => .halted (.error e) memory
  | .ok (.goto target) => match enter a.function a.registers (some a.label) target with
    | .error e => .halted (.error e) memory
    | .ok a => .running ⟨a, callers, memory⟩
  | .ok (.back result) => match callers with
    | [] => .halted (.ok result) memory
    | c :: callers => .running ⟨resume c result, callers, memory⟩

def step (m : Module) (cells : Table GlobalId Nat) (s : State) : Next :=
  match s.current.task with
  | .phis source phi rest read block =>
    match stepPhi s.current source phi rest read block with
    | .error e => .halted (.error e) s.memory
    | .ok a => .running ⟨a, s.callers, s.memory⟩
  | .body (o :: rest) t =>
    stepInstruction m cells { s.current with task := .body rest t } s.callers s.memory o.kind
  | .body [] t => stepTerminator s.current s.callers s.memory t

/-- How a run ends, with the memory and the number of steps that are left. -/
structure Result where
  outcome : Except Fault (Option Value)
  memory : Array Value
  left : Nat

def run (m : Module) (cells : Table GlobalId Nat) : Nat → State → Result
  | 0, s => ⟨.error .outOfSteps, s.memory, 0⟩
  | n + 1, s => match step m cells s with
    | .halted outcome memory => ⟨outcome, memory, n⟩
    | .running s => run m cells n s

def call (machine : Machine) (id : FuncId) (args : List Value) :
    Machine × Except Fault (Option Value) :=
  match invoke machine.module 0 id args with
  | .error e => (machine, .error e)
  | .ok a =>
    let r := run machine.module machine.cells machine.budget ⟨a, [], machine.memory⟩
    (⟨machine.module, machine.cells, r.memory, r.left⟩, r.outcome)

def callByName (machine : Machine) (name : String) (args : List Value) :
    Machine × Except Fault (Option Value) :=
  match machine.module.lookup name with
  | none => (machine, .error (.unknownFunction name))
  | some id => machine.call id args

end Machine

end SiteFusion
