import SiteFusion.Transform.Report

namespace SiteFusion

/-- Why the values of a function cannot be moved to memory. -/
inductive SpillFault
  | noEntry
  | entryTargeted (entry : BlockId)
deriving DecidableEq, Repr

def SpillFault.message : SpillFault → String
  | .noEntry => "function has no entry block"
  | .entryTargeted b => "entry block " ++ b.text ++ " has predecessors"

structure SpillCount where
  registers : Nat
  phis : Nat
deriving DecidableEq, Repr

def SpillCount.isEmpty (c : SpillCount) : Bool := c.registers = 0 && c.phis = 0

namespace Spill

/-- A value that may be moved to memory. -/
structure Definition where
  reg : Reg
  block : BlockId
  op : OpId
  isPhi : Bool
  ty : Ty
  tags : Tags

def blockDefinitions (f : Function) (b : Block) : List Definition :=
  b.phis.map (fun p => ⟨p.kind.dest, b.id, p.id, true, p.kind.ty, p.tags⟩) ++
    b.instructions.filterMap fun o =>
      if o.kind.isAlloca then none
      else o.kind.dest?.map fun d =>
        ⟨d, b.id, o.id, false, (f.regTypes.get? d).getD .i64, o.tags⟩

def definitions (f : Function) : List Definition :=
  f.graph.blockList.flatMap (blockDefinitions f)

/-- The registers of a block that are read by phis, or outside the block that defines them. -/
def blockEscaping (last : List Definition) (b : Block) : List Reg :=
  (b.phis.flatMap fun p => p.kind.uses) ++
    ((b.instructions.flatMap fun o => o.kind.uses) ++ b.terminator.kind.uses).filter fun r =>
      (last.find? fun d => d.reg = r).any fun d => d.block ≠ b.id

/-- The values that are read by phis or outside their blocks, in the order of the definitions. Of
several definitions of a register the last one counts. -/
def escaping (f : Function) : List Definition :=
  let defs := definitions f
  let last := defs.reverse
  let regs := f.graph.blockList.flatMap (blockEscaping last)
  ((defs.map Definition.reg).eraseDups.filter regs.contains).filterMap fun r =>
    last.find? fun d => d.reg = r

def createSlot (f : Function) (ty : Ty) (tags : Tags) : Edit (Function × Reg) := do
  let (f, slot) ← f.freshTyped (.ptr ty)
  let (f, alloca) ← f.op (Instruction.alloca slot ty) tags
  return (f.modifyBlock f.graph.entry fun b => b.insertAt b.allocaCount alloca, slot)

def newLoad (f : Function) (slot : Reg) (ty : Ty) (tags : Tags) :
    Edit (Function × Reg × Operation Instruction) := do
  let (f, dest) ← f.freshTyped ty
  let (f, load) ← f.op (Instruction.load dest (.reg slot) ty) tags
  return (f, dest, load)

def replaceIncoming (b : Block) (index : Nat) (pred : BlockId) (old new : Reg) : Block :=
  { b with
    phis := b.phis.modify index fun p => p.map fun p =>
      { p with
        incoming := p.incoming.map fun e =>
          if e.1 = pred then (e.1, e.2.replace old (.reg new)) else e } }

/-- The phis of a block that read a register, with the predecessors that it comes from. -/
def phiUses (b : Block) (r : Reg) : List (Nat × BlockId) :=
  (b.phis.mapIdx fun i p =>
    (p.kind.incoming.filter fun e => e.2.isReg r).map fun e => (i, e.1)).flatten

def reloadPhis (d : Definition) (slot : Reg) (b : BlockId) :
    List (Nat × BlockId) → Function → Edit Function
  | [], f => .ok f
  | (index, pred) :: rest, f =>
    if f.graph.blocks.contains pred then do
      let (f, value, load) ← newLoad f slot d.ty d.tags
      let f := f.modifyBlock pred fun p => p.push load
      let f := f.modifyBlock b fun b => replaceIncoming b index pred d.reg value
      reloadPhis d slot b rest f
    else reloadPhis d slot b rest f

def reloadInstructions (d : Definition) (slot : Reg) :
    List (Operation Instruction) → Function → Edit (Function × List (Operation Instruction))
  | [], f => .ok (f, [])
  | o :: rest, f =>
    if o.kind.reads d.reg then do
      let (f, value, load) ← newLoad f slot d.ty d.tags
      let (f, rest) ← reloadInstructions d slot rest f
      return (f, load :: o.map (fun i => i.replaceUse d.reg (.reg value)) :: rest)
    else do
      let (f, rest) ← reloadInstructions d slot rest f
      return (f, o :: rest)

def reloadTerminator (d : Definition) (slot : Reg) (t : Operation Terminator) (f : Function) :
    Edit (Function × List (Operation Instruction) × Operation Terminator) :=
  if t.kind.uses.contains d.reg then do
    let (f, value, load) ← newLoad f slot d.ty d.tags
    return (f, [load], t.map fun t => t.replaceUse d.reg (.reg value))
  else .ok (f, [], t)

def reloadBlock (d : Definition) (slot : Reg) (key : BlockId) (f : Function) : Edit Function :=
  match f.graph.block? key with
  | none => .ok f
  | some b => do
    let f ← reloadPhis d slot key (phiUses b d.reg) f
    if key = d.block then return f
    else match f.graph.block? key with
      | none => return f
      | some b =>
        let (f, insts) ← reloadInstructions d slot b.instructions f
        let (f, load, term) ← reloadTerminator d slot b.terminator f
        return f.modifyBlock key fun b =>
          { b with instructions := insts ++ load, terminator := term }

def reloadBlocks (d : Definition) (slot : Reg) : List BlockId → Function → Edit Function
  | [], f => .ok f
  | key :: rest, f => do
    let f ← reloadBlock d slot key f
    reloadBlocks d slot rest f

def insertStore (d : Definition) (store : Operation Instruction) (b : Block) : Block :=
  if d.isPhi then b.insertAt 0 store
  else match b.instructions.findIdx? fun o => o.id = d.op with
    | some i => b.insertAt (i + 1) store
    | none => b

def demoteValue (f : Function) (d : Definition) : Edit Function := do
  let (f, slot) ← createSlot f d.ty d.tags
  let f ← reloadBlocks d slot f.graph.blocks.keys f
  let (f, store) ← f.op (Instruction.store (.reg slot) (.reg d.reg)) d.tags
  return f.modifyBlock d.block (insertStore d store)

def demoteValues : List Definition → Function → Edit Function
  | [], f => .ok f
  | d :: rest, f => do
    let f ← demoteValue f d
    demoteValues rest f

def storeIncoming (slot : Reg) (tags : Tags) :
    List (BlockId × Operand) → List BlockId → Function → Edit Function
  | [], _, f => .ok f
  | (pred, v) :: rest, seen, f =>
    if seen.contains pred then storeIncoming slot tags rest seen f
    else do
      let (f, store) ← f.op (Instruction.store (.reg slot) v) tags
      storeIncoming slot tags rest (pred :: seen) (f.modifyBlock pred fun b => b.push store)

def demotePhi (f : Function) (key : BlockId) (index : Nat) (p : Operation Phi) : Edit Function := do
  let f := f.modifyBlock key fun b => { b with phis := b.phis.eraseIdx index }
  let (f, slot) ← createSlot f p.kind.ty p.tags
  let f ← storeIncoming slot p.tags p.kind.incoming [] f
  let (f, load) ← f.op (Instruction.load p.kind.dest (.reg slot) p.kind.ty) p.tags
  return f.modifyBlock key fun b => b.insertAt 0 load

def demotePhis : List (BlockId × OpId) → Function → Nat → Edit (Function × Nat)
  | [], f, n => .ok (f, n)
  | (key, op) :: rest, f, n =>
    match f.graph.block? key with
    | none => demotePhis rest f n
    | some b => match b.phis.findIdx? fun p => p.id = op with
      | none => demotePhis rest f n
      | some i => match b.phis[i]? with
        | none => demotePhis rest f n
        | some p => do
          let f ← demotePhi f key i p
          demotePhis rest f (n + 1)

def phiList (f : Function) : List (BlockId × OpId) :=
  f.graph.blockList.flatMap fun b => b.phis.map fun p => (b.id, p.id)

def fault? (f : Function) : Option SpillFault :=
  if !f.graph.blocks.contains f.graph.entry then some .noEntry
  else if !(f.graph.predecessors f.graph.entry).isEmpty then some (.entryTargeted f.graph.entry)
  else none

def demote (f : Function) : Edit (Except SpillFault (Function × SpillCount)) :=
  match fault? f with
  | some e => .ok (.error e)
  | none => do
    let values := escaping f
    let f ← demoteValues values f
    let (f, phis) ← demotePhis (phiList f) f 0
    return .ok (f, ⟨values.length, phis⟩)

def transform : FunctionTransform := fun f => do
  match ← demote f with
  | .error _ => return (f, .unchanged)
  | .ok (f, n) =>
    if n.isEmpty then return (f, .unchanged)
    else
      return (f, (Report.changed.count "registers_demoted" n.registers).count "phis_demoted" n.phis)

end Spill

end SiteFusion
