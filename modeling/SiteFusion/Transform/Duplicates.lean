import SiteFusion.Code.Document
import SiteFusion.Transform.Report

namespace SiteFusion.Duplicates

variable {κ ι : Type} [DecidableEq κ] [DecidableEq ι]

/-- Something that may have duplicates: what it is compared by, its number, and whether it is
local. -/
structure Member (κ ι : Type) where
  key : κ
  id : ι
  isLocal : Bool

/-- Add a member to its group, at the end if it is local and else at the front. -/
def addMember : List (κ × List ι) → Member κ ι → List (κ × List ι)
  | [], a => [(a.key, [a.id])]
  | (k, ids) :: groups, a =>
    if k = a.key then (k, if a.isLocal then ids ++ [a.id] else a.id :: ids) :: groups
    else (k, ids) :: addMember groups a

def groups (members : List (Member κ ι)) : List (List ι) :=
  (members.foldl addMember []).map Prod.snd

def replaceIn (isLocal : ι → Edit Bool) (leader : ι) : List ι → Table ι ι → Edit (Table ι ι)
  | [], t => .ok t
  | a :: ids, t => do
    let l ← isLocal a
    replaceIn isLocal leader ids (if l then t.insert a leader else t)

def replacements (isLocal : ι → Edit Bool) : List (List ι) → Table ι ι → Edit (Table ι ι)
  | [], t => .ok t
  | [] :: rest, t => replacements isLocal rest t
  | (leader :: ids) :: rest, t => do
    let t ← replaceIn isLocal leader ids t
    replacements isLocal rest t

def substitute (t : Table ι ι) (a : ι) : ι := (t.get? a).getD a

def redirectGlobal (t : Table GlobalId GlobalId) : Instruction → Instruction
  | .loadGlobal d g ty => .loadGlobal d (substitute t g) ty
  | .storeGlobal g v => .storeGlobal (substitute t g) v
  | i => i

def redirectFunction (t : Table FuncId FuncId) : Instruction → Instruction
  | .call d c args => .call d (substitute t c) args
  | .functionRef d c => .functionRef d (substitute t c)
  | i => i

def redirectCount (m : Module) (t : Table FuncId FuncId) : Nat :=
  ((m.functionList.flatMap Function.functions).filter t.contains).length

def redirectFunctions (m : Module) (t : Table FuncId FuncId) : Module :=
  m.mapInstructions (redirectFunction t)

def constantMember? (g : Global) : Option (Member (Ty × Const) GlobalId) :=
  if g.mutable then none
  else g.initializer.map fun c => ⟨(g.ty, c), g.id, g.linkage.isLocal⟩

def isLocalGlobal (m : Module) (g : GlobalId) : Edit Bool :=
  match m.globals.get? g with
  | some h => .ok h.linkage.isLocal
  | none => .error (.unlisted .global g.index.toNat)

def mergeConstants : ModuleTransform := fun m => do
  let members := m.globals.values.filterMap constantMember?
  let t ← replacements (isLocalGlobal m) (groups members) .empty
  if t.isEmpty then return (m, .unchanged)
  else
    let m := m.mapInstructions (redirectGlobal t)
    return ({ m with globals := m.globals.filter fun g _ => !t.contains g },
      Report.changed.count "globals_merged" t.size)

def blockRegisters (b : Block) : List Reg :=
  (b.phis.flatMap fun p => p.kind.dest :: p.kind.uses) ++
    (b.instructions.flatMap fun o => o.kind.uses ++ o.kind.dest?.toList) ++ b.terminator.kind.uses

def registers (f : Function) : List Reg :=
  (f.signature.params.map Param.reg ++ f.graph.blockList.flatMap blockRegisters).eraseDups

/-- New names for the registers and blocks of a function. -/
structure Renaming where
  reg : Reg → Reg
  label : BlockId → BlockId

def Renaming.ofFunction (f : Function) : Renaming :=
  let regs := registers f
  let blocks := f.graph.blocks.keys
  { reg := fun r => ⟨(regs.idxOf r).toUInt32⟩
    label := fun b => if blocks.contains b then ⟨(blocks.idxOf b).toUInt32⟩ else b }

def Renaming.operand (n : Renaming) : Operand → Operand
  | .reg r => .reg (n.reg r)
  | .const c => .const c

def Renaming.phi (n : Renaming) (p : Phi) : Phi :=
  ⟨n.reg p.dest, p.incoming.map fun e => (n.label e.1, n.operand e.2), p.ty⟩

def Renaming.instruction (n : Renaming) (i : Instruction) : Instruction :=
  (i.mapOperands n.operand).mapDest n.reg

def Renaming.terminator (n : Renaming) (t : Terminator) : Terminator :=
  (t.mapOperands n.operand).mapTargets n.label

def renumber {κ : Type} (f : κ → κ) (i : Nat) (o : Operation κ) : Operation κ :=
  ⟨⟨i.toUInt32⟩, f o.kind, o.tags⟩

def Renaming.block (n : Renaming) (i : Nat) (b : Block) : Block :=
  let j := i + b.phis.length
  let k := j + b.instructions.length
  ⟨n.label b.id, none, b.phis.mapIdx fun x o => renumber n.phi (i + x) o,
    b.instructions.mapIdx fun x o => renumber n.instruction (j + x) o,
    renumber n.terminator k b.terminator⟩

/-- Blocks with new names, the numbers of their operations running through all of them. -/
def Renaming.blocks (n : Renaming) : Nat → List Block → List Block
  | _, [] => []
  | i, b :: bs => n.block i b :: n.blocks (i + b.phis.length + b.instructions.length + 1) bs

/-- A function without its name and without the choice of its numbers. -/
def canonical (f : Function) : Function :=
  let n := Renaming.ofFunction f
  let params := f.signature.params.map fun p => Param.mk "" p.ty (n.reg p.reg)
  let blocks := n.blocks 0 f.graph.blockList
  { id := ⟨0⟩
    name := ""
    signature := { f.signature with params }
    graph := ⟨.ofList (blocks.map fun b => (b.id, b)), n.label f.graph.entry, 0, 0⟩
    regTypes := .empty
    attributes := { f.attributes with linkage := .private_ }
    kind := f.kind
    trap := f.trap.map n.label
    nextReg := 0 }

/-- The characters of the text that functions are compared by. Functions with the same text do the
same, unless they have floating point constants: those that are not finite are all written alike. -/
def canonicalForm (f : Function) : List Char := (canonical f).json.chars

def functionMember? (f : Function) : Option (Member (List Char) FuncId) :=
  if f.isOptimizable then some ⟨canonicalForm f, f.id, f.attributes.linkage.isLocal⟩ else none

def isLocalFunction (m : Module) (f : FuncId) : Edit Bool :=
  match m.function? f with
  | some h => .ok h.attributes.linkage.isLocal
  | none => .error (.unlisted .function f.index.toNat)

def mergeFunctions : ModuleTransform := fun m => do
  let members := m.functionList.filterMap functionMember?
  let t ← replacements (isLocalFunction m) (groups members) .empty
  if t.isEmpty then return (m, .unchanged)
  else
    let m := redirectFunctions m t
    return ({ m with functions := m.functions.filter fun f _ => !t.contains f },
      Report.changed.count "functions_merged" t.size)

end SiteFusion.Duplicates
