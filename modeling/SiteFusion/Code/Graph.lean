import SiteFusion.Code.Block
import SiteFusion.Edit
import SiteFusion.Reach
import SiteFusion.Table

namespace SiteFusion

structure Graph where
  blocks : Table BlockId Block
  entry : BlockId
  nextBlock : UInt32
  nextOp : UInt32
deriving DecidableEq

namespace Graph

def start : Graph := ⟨Table.empty.insert ⟨0⟩ (.fresh ⟨0⟩ ⟨0⟩), ⟨0⟩, 1, 1⟩

def block? (g : Graph) (b : BlockId) : Option Block := g.blocks.get? b

def blockList (g : Graph) : List Block := g.blocks.values

def modifyBlock (g : Graph) (b : BlockId) (f : Block → Block) : Graph :=
  { g with blocks := g.blocks.modify b f }

def mapBlocks (g : Graph) (f : Block → Block) : Graph := { g with blocks := g.blocks.map f }

def freshOp (g : Graph) : Edit (Graph × OpId) := do
  let next ← Counter.operation.next g.nextOp
  return ({ g with nextOp := next }, ⟨g.nextOp⟩)

def op {κ : Type} (g : Graph) (kind : κ) (tags : Tags) : Edit (Graph × Operation κ) := do
  let (g, id) ← g.freshOp
  return (g, ⟨id, kind, tags⟩)

def createBlock (g : Graph) : Edit (Graph × BlockId) := do
  let id : BlockId := ⟨g.nextBlock⟩
  let next ← Counter.block.next g.nextBlock
  let (g, term) ← { g with nextBlock := next }.freshOp
  return ({ g with blocks := g.blocks.insert id (.fresh id term) }, id)

def predecessors (g : Graph) (b : BlockId) : List BlockId :=
  (g.blockList.filter fun p => p.successors.contains b).map Block.id

def predecessorTable (g : Graph) : Table BlockId (List BlockId) :=
  g.blocks.mapWithKey fun b _ => g.predecessors b

def locate (g : Graph) (op : OpId) : Option (BlockId × Position) :=
  g.blockList.findSome? fun b => (b.positionOf op).map fun p => (b.id, p)

def locateInstruction (g : Graph) (op : OpId) : Option (BlockId × Nat) :=
  match g.locate op with
  | some (b, .inst i) => some (b, i)
  | _ => none

def instruction? (g : Graph) (op : OpId) : Option (Operation Instruction) := do
  let (b, i) ← g.locateInstruction op
  let b ← g.block? b
  b.instructions[i]?

def modifyBlocks (g : Graph) (bs : List BlockId) (f : Block → Block) : Graph :=
  { g with blocks := g.blocks.mapWithKey fun k b => if bs.contains k then f b else b }

/-- In the successors of `b`, expect from `new` what was expected from `old`. -/
def retargetPhis (g : Graph) (b old new : BlockId) : Graph :=
  match g.block? b with
  | none => g
  | some block => g.modifyBlocks block.successors fun s => s.mapPhis fun p => p.retarget old new

/-- Cut a block before an instruction. What follows moves to a new block, which the first part
then branches to. -/
def splitBlock (g : Graph) (b : BlockId) (index : Nat) : Edit (Graph × Option BlockId) :=
  match g.block? b with
  | none => .ok (g, none)
  | some block =>
    if block.instructions.length < index then .ok (g, none)
    else do
      let (g, tail) ← g.createBlock
      let (g, branch) ← g.op (Terminator.branch tail) .empty
      match g.block? b with
      | none => return (g, none)
      | some source =>
        if source.instructions.length < index then .error (.cutBeyondEnd index)
        else
          let g := g.modifyBlock b fun s =>
            { s with instructions := s.instructions.take index, terminator := branch }
          let g := g.modifyBlock tail fun t =>
            { t with
              instructions := source.instructions.drop index
              terminator := source.terminator }
          return (g.retargetPhis tail b tail, some tail)

def removeBlock (g : Graph) (b : BlockId) : Graph :=
  match g.block? b with
  | none => g
  | some block =>
    { g with blocks := g.blocks.erase b }.modifyBlocks block.successors fun s =>
      s.mapPhis fun p => p.removeIncoming b

def edgeCount (g : Graph) : Nat := (g.blockList.flatMap Block.successors).length

def successorsOf (g : Graph) (b : BlockId) : List BlockId :=
  match g.block? b with
  | none => []
  | some block => block.successors

/-- The blocks that can be reached from `b`, in the order of discovery. The last edge of a block is
followed first. -/
def reachableFrom (g : Graph) (b : BlockId) : List BlockId :=
  reach (fun b => (g.successorsOf b).reverse) (g.edgeCount + 1) [b] []

def reachable (g : Graph) : List BlockId := g.reachableFrom g.entry

/-- What is wrong with a graph. -/
inductive Fault
  | noEntry
  | entryTargeted (entry : BlockId)
  | missingSuccessor (block target : BlockId)
  | foreignIncoming (phi : Reg) (block pred : BlockId)
  | incomingCount (phi : Reg) (block pred : BlockId)
deriving DecidableEq, Repr

def Fault.message : Fault → String
  | .noEntry => "Entry block not found"
  | .entryTargeted b => "Entry block " ++ b.text ++ " has predecessors"
  | .missingSuccessor b t =>
    "Block " ++ b.text ++ " references non-existent successor " ++ t.text
  | .foreignIncoming r b p =>
    "Phi node " ++ r.text ++ " in block " ++ b.text ++ " references non-predecessor block " ++
      p.text
  | .incomingCount r b p =>
    "Phi node " ++ r.text ++ " in block " ++ b.text ++ " needs exactly one value from " ++ p.text

def phiFault (b : BlockId) (preds : List BlockId) (p : Phi) : Option Fault :=
  ((p.incoming.find? fun e => !preds.contains e.1).map fun e => .foreignIncoming p.dest b e.1).or
    ((preds.find? fun pred => (p.incoming.filter fun e => e.1 = pred).length ≠ 1).map fun pred =>
      .incomingCount p.dest b pred)

def blockFault (g : Graph) (key : BlockId) (b : Block) : Option Fault :=
  ((b.successors.find? fun s => !g.blocks.contains s).map fun s => .missingSuccessor key s).or
    (b.phis.findSome? fun p => phiFault key (g.predecessors key) p.kind)

def fault? (g : Graph) : Option Fault :=
  if !g.blocks.contains g.entry then some .noEntry
  else if !(g.predecessors g.entry).isEmpty then some (.entryTargeted g.entry)
  else g.blocks.entries.findSome? fun e => g.blockFault e.1 e.2

end Graph

end SiteFusion
