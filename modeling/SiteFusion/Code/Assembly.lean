import SiteFusion.Code.Module

namespace SiteFusion

structure Assembly where
  module : Module
  function : Option FuncId
  block : Option BlockId

abbrev Build := OptionT (StateT Assembly (Except Abort))

namespace Build

variable {α : Type}

def apply (b : Build α) (a : Assembly) : Edit (Option α × Assembly) := StateT.run (OptionT.run b) a

def ofOption : Option α → Build α
  | none => failure
  | some a => pure a

def onModule (h : Module → Edit (Module × α)) : Build α := do
  let a ← get
  let (m, r) ← (h a.module : Except Abort _)
  set { a with module := m }
  return r

def current : Build Function := do
  let a ← get
  ofOption (a.function.bind a.module.function?)

/-- Change the function that is being written. -/
def onFunction (h : Function → Edit (Function × Option α)) : Build α := do
  let a ← get
  let key ← ofOption a.function
  let f ← current
  let (f, r) ← (h f : Except Abort _)
  set { a with module := a.module.setFunction key f }
  ofOption r

def currentBlock : Build BlockId := do ofOption (← get).block

def startFunction (name : String) (params : List (String × Ty)) (result : Ty) : Build FuncId := do
  let f ← onModule fun m => do
    let (m, id) ← m.freshFunction
    let f := Function.create id name params result
    return (← m.addFunction f, f)
  modify fun a => { a with function := some f.id, block := some f.graph.entry }
  return f.id

def declareFunction (name : String) (params : List (String × Ty)) (result : Ty) : Build FuncId :=
  onModule fun m => do
    let (m, id) ← m.freshFunction
    return (← m.addFunction (.declaration id name params result), id)

def finishFunction : Build Unit := modify fun a => { a with function := none, block := none }

def addGlobal (name : String) (ty : Ty) (initializer : Option Const) (mutable : Bool)
    (linkage : Linkage) : Build GlobalId :=
  onModule fun m => m.addGlobal name ty initializer mutable linkage

def setLinkage (linkage : Linkage) : Build Unit :=
  onFunction fun f =>
    .ok ({ f with attributes := { f.attributes with linkage := linkage } }, some ())

def param (index : Nat) : Build Reg := do
  let f ← current
  ofOption (f.signature.params[index]?.map Param.reg)

def createBlock : Build BlockId :=
  onFunction fun f => do
    let (f, b) ← f.createBlock
    return (f, some b)

def createLabelled (label : String) : Build BlockId :=
  onFunction fun f => do
    let (f, b) ← f.createBlock
    return (f.modifyBlock b fun b => { b with label := some label }, some b)

def switchTo (b : BlockId) : Build Unit := modify fun a => { a with block := some b }

def freshReg (ty : Ty) : Build Reg :=
  onFunction fun f => do
    let (f, r) ← f.freshTyped ty
    return (f, some r)

def operandType : Operand → Build Ty
  | .reg r => do
    let f ← current
    ofOption (f.regTypes.get? r)
  | .const c => pure c.ty

/-- Put something with a fresh number into the current block. -/
def place {κ : Type} (kind : κ) (h : Operation κ → Block → Block) : Build OpId := do
  let b ← currentBlock
  onFunction fun f => do
    let (f, o) ← f.op kind .empty
    if f.graph.blocks.contains b then return (f.modifyBlock b (h o), some o.id)
    else return (f, none)

def push (i : Instruction) : Build OpId := place i fun o b => b.push o

/-- Write an instruction that defines a fresh register of a type. -/
def define (ty : Ty) (i : Reg → Instruction) : Build Reg := do
  let r ← freshReg ty
  let _ ← push (i r)
  return r

/-- Write an instruction that defines a fresh register, unless its type is void. -/
def defineUnlessVoid (ty : Ty) (i : Option Reg → Instruction) : Build (OpId × Option Reg) := do
  let r ← if ty.isVoid then pure none else some <$> freshReg ty
  let op ← push (i r)
  return (op, r)

def const (c : Const) : Build Reg := define c.ty (.const · c)

def copy (o : Operand) : Build Reg := do define (← operandType o) (.copy · o)

/-- The result has the type of the left operand. -/
def binary (op : BinaryOp) (l r : Operand) : Build Reg := do
  define (← operandType l) (.binary · op l r)

def unary (op : UnaryOp) (o : Operand) : Build Reg := do
  define (← operandType o) (.unary · op o)

def compare (op : CompareOp) (l r : Operand) : Build Reg := define .bool (.compare · op l r)

def select (c a b : Operand) : Build Reg := do
  define (← operandType a) (.select · c a b)

def alloca (ty : Ty) : Build Reg := define (.ptr ty) (.alloca · ty)

def load (p : Operand) (ty : Ty) : Build Reg := define ty (.load · p ty)

def store (p v : Operand) : Build OpId := push (.store p v)

def loadGlobal (g : GlobalId) (ty : Ty) : Build Reg := define ty (.loadGlobal · g ty)

def storeGlobal (g : GlobalId) (v : Operand) : Build OpId := push (.storeGlobal g v)

def call (f : FuncId) (args : List Operand) : Build (OpId × Option Reg) := do
  let callee ← ofOption ((← get).module.function? f)
  defineUnlessVoid callee.signature.result (.call · f args)

def callIndirect (p : Operand) (args : List Operand) (result : Ty) : Build (OpId × Option Reg) :=
  defineUnlessVoid result (.callIndirect · p args)

def inlineAsm (asm : String) (inputs : List Operand) (result : Ty) : Build (OpId × Option Reg) :=
  defineUnlessVoid result (.inlineAsm · asm inputs)

def functionRef (f : FuncId) : Build Reg := define .fnPtr (.functionRef · f)

def terminate (t : Terminator) : Build Unit := do
  let _ ← place t fun o b => { b with terminator := o }

def phi (ty : Ty) : Build Reg := do
  let _ ← currentBlock
  let r ← freshReg ty
  let _ ← place (Phi.mk r [] ty) fun o b => b.pushPhi o
  return r

/-- Add an incoming value to the first phi that defines a register. -/
def addIncoming (r : Reg) (e : BlockId × Operand) : List (Operation Phi) → List (Operation Phi)
  | [] => []
  | p :: ps =>
    if p.kind.dest = r then p.map (fun q => { q with incoming := q.incoming ++ [e] }) :: ps
    else p :: addIncoming r e ps

/-- Add an incoming value to the phi of a block that defines a register. -/
def incoming (b : BlockId) (r : Reg) (pred : BlockId) (v : Operand) : Build Unit :=
  onFunction fun f =>
    match f.graph.block? b with
    | none => .ok (f, none)
    | some block =>
      if block.phis.any fun p => p.kind.dest = r then
        .ok (f.modifyBlock b fun b => { b with phis := addIncoming r (pred, v) b.phis }, some ())
      else .ok (f, none)

end Build

end SiteFusion
