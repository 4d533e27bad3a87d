import SiteFusion.Code.Module

namespace SiteFusion

/-- Why a call cannot be inlined. -/
inductive InlineFault
  | callerMissing (f : FuncId)
  | callMissing (op : OpId) (function : String)
  | calleeMissing (f : FuncId)
  | notDirectCall (op : OpId)
  | noBody (callee : String)
  | varargs (callee : String)
  | arity (callee : String) (expected found : Nat)
  | collectors (caller callee : String)
  | selfCall (f : String)
deriving DecidableEq, Repr

def InlineFault.message : InlineFault → String
  | .callerMissing f => "caller " ++ f.text ++ " not found"
  | .callMissing op f => "call " ++ op.text ++ " in '" ++ f ++ "' not found"
  | .calleeMissing f => "callee " ++ f.text ++ " not found"
  | .notDirectCall op => "operation " ++ op.text ++ " is not a direct call"
  | .noBody f => "callee '" ++ f ++ "' has no body"
  | .varargs f => "callee '" ++ f ++ "' is variadic"
  | .arity f e n =>
    "call to '" ++ f ++ "' passes " ++ toString n ++ " arguments, expected " ++ toString e
  | .collectors a b => "gc strategy '" ++ a ++ "' of caller differs from '" ++ b ++ "'"
  | .selfCall f => "'" ++ f ++ "' calls itself"

/-- What inlining has put into the caller. -/
structure Inlined where
  cloned : List OpId
  entry : BlockId
  continuation : BlockId
deriving DecidableEq, Repr

namespace Inline

structure Call where
  block : BlockId
  index : Nat
  dest : Option Reg
  callee : FuncId
  args : List Operand

/-- What becomes of the registers and blocks of the callee. -/
structure Mapping where
  operands : Table Reg Operand
  blocks : Table BlockId BlockId

namespace Mapping

def operand (n : Mapping) : Operand → Operand
  | .reg r => (n.operands.get? r).getD (.reg r)
  | .const c => .const c

def reg (n : Mapping) (r : Reg) : Reg := ((n.operands.get? r).bind Operand.reg?).getD r

def label (n : Mapping) (b : BlockId) : BlockId := (n.blocks.get? b).getD b

def phi (n : Mapping) (p : Phi) : Phi :=
  ⟨n.reg p.dest, p.incoming.map fun e => (n.label e.1, n.operand e.2), p.ty⟩

def instruction (n : Mapping) (i : Instruction) : Instruction :=
  (i.mapDest n.reg).mapOperands n.operand

def terminator (n : Mapping) (t : Terminator) : Terminator :=
  (t.mapOperands n.operand).mapTargets n.label

end Mapping

def findCall (m : Module) (caller : FuncId) (op : OpId) : Edit (Except InlineFault Call) :=
  match m.function? caller with
  | none => .ok (.error (.callerMissing caller))
  | some f => match f.graph.locateInstruction op with
    | none => .ok (.error (.callMissing op f.name))
    | some (block, index) =>
      match (f.graph.block? block).bind fun b => b.instructions[index]? with
      | none => .error (.unlisted .block block.index.toNat)
      | some o => match o.kind with
        | .call dest callee args => .ok (.ok ⟨block, index, dest, callee, args⟩)
        | _ => .ok (.error (.notDirectCall op))

def fault? (m : Module) (caller : FuncId) (callee : Function) (call : Call) :
    Option InlineFault :=
  let expected := callee.signature.params.length
  if callee.id = caller then some (.selfCall callee.name)
  else if callee.isDeclaration then some (.noBody callee.name)
  else if callee.signature.varargs then some (.varargs callee.name)
  else if call.args.length ≠ expected then
    some (.arity callee.name expected call.args.length)
  else match (m.function? caller).bind fun f => f.attributes.gc, callee.attributes.gc with
    | some a, some b => if a = b then none else some (.collectors a b)
    | _, _ => none

def bindParams : List Param → List Operand → Table Reg Operand → Table Reg Operand
  | p :: ps, o :: os, t => bindParams ps os (t.insert p.reg o)
  | _, _, t => t

def blockResults (callee : Function) (b : Block) : List (Reg × Ty) :=
  b.phis.map (fun p => (p.kind.dest, p.kind.ty)) ++
    b.instructions.filterMap fun o =>
      o.kind.dest?.map fun d => (d, (callee.regTypes.get? d).getD .i64)

def renameRegs : List (Reg × Ty) → Function → Table Reg Operand →
    Edit (Function × Table Reg Operand)
  | [], f, t => .ok (f, t)
  | (r, ty) :: rest, f, t => do
    let (f, fresh) ← f.freshTyped ty
    renameRegs rest f (t.insert r (.reg fresh))

def sharedTrap? (callee : Function) : Option BlockId := do
  let b ← callee.trap
  let block ← callee.graph.block? b
  if block.isTrap then some block.id else none

/-- A fresh block for each block of the callee, but the shared block of the caller for that of the
callee. -/
def renameBlocks (trap : Option BlockId) : List BlockId → Function → Table BlockId BlockId →
    Edit (Function × Table BlockId BlockId)
  | [], f, t => .ok (f, t)
  | b :: rest, f, t => do
    let (f, fresh) ← if some b = trap then f.trapBlock else f.createBlock
    renameBlocks trap rest f (t.insert b fresh)

def copyOps {κ : Type} (h : κ → κ) : List (Operation κ) → Function →
    Edit (Function × List (Operation κ))
  | [], f => .ok (f, [])
  | o :: rest, f => do
    let (f, c) ← f.op (h o.kind) o.tags
    let (f, rest) ← copyOps h rest f
    return (f, c :: rest)

def returned? (n : Mapping) (result : Ty) : Terminator → Option Operand
  | .ret (some v) => some (n.operand v)
  | .ret none => some (.const result.zero)
  | _ => none

def copyTerminator (n : Mapping) (continuation : BlockId) : Terminator → Terminator
  | .ret _ => .branch continuation
  | t => n.terminator t

/-- What comes out of copying blocks: the numbers of the copied operations, and the blocks that
return with their values. -/
structure Copied where
  ops : List OpId
  returns : List (BlockId × Operand)

def copyBlock (n : Mapping) (result : Ty) (continuation : BlockId) (key : BlockId) (b : Block)
    (f : Function) : Edit (Function × Copied) := do
  let target := n.label key
  let (f, phis) ← copyOps n.phi b.phis f
  let (f, insts) ← copyOps n.instruction b.instructions f
  let (f, term) ← f.op (copyTerminator n continuation b.terminator.kind) b.terminator.tags
  let f := f.modifyBlock target fun t =>
    { t with label := b.label, phis := phis, instructions := insts, terminator := term }
  let ops := phis.map Operation.id ++ insts.map Operation.id ++ [term.id]
  let returns := match returned? n result b.terminator.kind with
    | none => []
    | some v => [(target, v)]
  return (f, ⟨ops, returns⟩)

def copyBlocks (n : Mapping) (result : Ty) (continuation : BlockId) (trap : Option BlockId) :
    List (BlockId × Block) → Function → Edit (Function × Copied)
  | [], f => .ok (f, ⟨[], []⟩)
  | (key, b) :: rest, f =>
    if some key = trap then copyBlocks n result continuation trap rest f
    else do
      let (f, c) ← copyBlock n result continuation key b f
      let (f, cs) ← copyBlocks n result continuation trap rest f
      return (f, ⟨c.ops ++ cs.ops, c.returns ++ cs.returns⟩)

def hoistAllocas (f : Function) (key : BlockId) : Function :=
  match f.graph.block? key with
  | none => f
  | some b =>
    let allocas := b.instructions.filter fun o => o.kind.isAlloca
    let f := f.modifyBlock key fun b =>
      { b with instructions := b.instructions.filter fun o => !o.kind.isAlloca }
    f.modifyBlock f.graph.entry fun e =>
      let i := e.allocaCount
      { e with instructions := e.instructions.take i ++ allocas ++ e.instructions.drop i }

def bindResult (f : Function) (continuation : BlockId) (dest : Reg)
    (returns : List (BlockId × Operand)) : Edit Function :=
  match returns with
  | [] => do
    let (f, o) ← f.op (Instruction.const dest .undefined) .empty
    return f.modifyBlock continuation fun b => b.insertAt 0 o
  | [(_, v)] => do
    let (f, o) ← f.op (Instruction.copy dest v) .empty
    return f.modifyBlock continuation fun b => b.insertAt 0 o
  | returns => do
    let (f, p) ← f.op (Phi.mk dest returns ((f.regTypes.get? dest).getD .i64)) .empty
    return f.modifyBlock continuation fun b => b.pushPhi p

def splice (f : Function) (callee : Function) (call : Call) :
    Edit (Function × Option Inlined) := do
  let (f, tail) ← f.splitBlock call.block (call.index + 1)
  match tail with
  | none => return (f, none)
  | some continuation =>
    let f := f.modifyBlock call.block fun b =>
      { b with instructions := b.instructions.take call.index }
    let results := callee.graph.blockList.flatMap (blockResults callee)
    let (f, operands) ← renameRegs results f (bindParams callee.signature.params call.args .empty)
    let trap := sharedTrap? callee
    let (f, blocks) ← renameBlocks trap callee.graph.blocks.keys f .empty
    let n : Mapping := ⟨operands, blocks⟩
    let (f, copied) ←
      copyBlocks n callee.signature.result continuation trap callee.graph.blocks.entries f
    let entry := n.label callee.graph.entry
    let f := hoistAllocas f entry
    let f ← match call.dest with
      | none => pure f
      | some d => bindResult f continuation d copied.returns
    let f := f.modifyBlock call.block fun b =>
      b.mapTerminator fun t => t.redirect continuation entry
    return (f, some ⟨copied.ops, entry, continuation⟩)

def adoptCollector (f callee : Function) : Function :=
  if f.attributes.gc.isNone then
    { f with attributes := { f.attributes with gc := callee.attributes.gc } }
  else f

def inlineCall (m : Module) (caller : FuncId) (op : OpId) :
    Edit (Except InlineFault (Module × Inlined)) := do
  match ← findCall m caller op with
  | .error e => return .error e
  | .ok call => match m.function? call.callee, m.function? caller with
    | none, _ => return .error (.calleeMissing call.callee)
    | some _, none => return .error (.callerMissing caller)
    | some callee, some f => match fault? m caller callee call with
      | some e => return .error e
      | none => do
        match ← splice f callee call with
        | (_, none) => return .error (.callMissing op f.name)
        | (g, some inlined) => return .ok (m.setFunction caller (adoptCollector g callee), inlined)

end Inline

end SiteFusion
