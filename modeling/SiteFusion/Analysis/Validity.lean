import SiteFusion.Analysis.Dominance
import SiteFusion.Code.Module

namespace SiteFusion

/-- What is wrong with a function. -/
inductive Violation
  | undefinedRegister (r : Reg)
  | redefinedRegister (r : Reg)
  | unknownCallee (f : FuncId)
  | noEntry (entry : BlockId)
  | entryTargeted (source entry : BlockId)
  | missingSuccessor (block target : BlockId)
  | brokenTrap (block : BlockId)
  | foreignIncoming (block pred : BlockId)
  | incomingCount (block pred : BlockId) (count : Nat)
  | argumentCount (callee : FuncId) (expected found : Nat)
  | voidResult (callee : FuncId)
  | returnMismatch (f : FuncId)
  | notDominated (r : Reg) (definition use : BlockId)
  | duplicateOperation (op : OpId)
deriving DecidableEq, Repr

def Violation.message : Violation → String
  | .undefinedRegister r => "register " ++ r.text ++ " is used but never defined"
  | .redefinedRegister r => "register " ++ r.text ++ " is defined more than once"
  | .unknownCallee f => "invalid operand: call to unknown function " ++ f.text
  | .noEntry b => "invalid edge " ++ b.text ++ " -> " ++ b.text ++ ": entry block not found"
  | .entryTargeted a b =>
    "invalid edge " ++ a.text ++ " -> " ++ b.text ++ ": entry block has predecessors"
  | .missingSuccessor a b =>
    "invalid edge " ++ a.text ++ " -> " ++ b.text ++ ": successor block not found"
  | .brokenTrap b =>
    "invalid edge " ++ b.text ++ " -> " ++ b.text ++
      ": shared trap block is missing or no longer unreachable"
  | .foreignIncoming b p =>
    "invalid phi in " ++ b.text ++ ": incoming block " ++ p.text ++ " is not a predecessor"
  | .incomingCount b p n =>
    "invalid phi in " ++ b.text ++ ": " ++ toString n ++ " entries for predecessor " ++ p.text
  | .argumentCount f e n =>
    "signature mismatch for " ++ f.text ++ ": expected " ++ toString e ++ " arguments, found " ++
      toString n
  | .voidResult f => "signature mismatch for " ++ f.text ++ ": void call defines a register"
  | .returnMismatch f =>
    "signature mismatch for " ++ f.text ++ ": return value does not match the return type"
  | .notDominated r d u =>
    "invalid SSA for " ++ r.text ++ ": definition in " ++ d.text ++ " does not dominate use in " ++
      u.text
  | .duplicateOperation o => "operation id " ++ o.text ++ " is used twice"

structure Finding where
  violation : Violation
  function : FuncId
  block : Option BlockId
  op : Option OpId
deriving DecidableEq, Repr

def Finding.text (f : Finding) : String :=
  let block := match f.block with
    | none => ""
    | some b => ":" ++ b.text
  let op := match f.op with
    | none => ""
    | some o => ":" ++ o.text
  f.function.text ++ block ++ op ++ ": " ++ f.violation.message

def Signature.accepts (s : Signature) (n : Nat) : Bool :=
  if s.varargs then s.params.length ≤ n else n = s.params.length

namespace Function

def finding (f : Function) (b : BlockId) (op : OpId) (v : Violation) : Finding :=
  ⟨v, f.id, some b, some op⟩

def phiFindings (f : Function) (b : BlockId) (preds : List BlockId) (p : Operation Phi) :
    List Finding :=
  ((p.kind.incoming.filter fun e => !preds.contains e.1).map fun e =>
    f.finding b p.id (.foreignIncoming b e.1)) ++
  preds.filterMap fun pred =>
    let n := (p.kind.incoming.filter fun e => e.1 = pred).length
    if n = 1 then none else some (f.finding b p.id (.incomingCount b pred n))

def repeated : List OpId → List OpId → List OpId
  | _, [] => []
  | seen, o :: os => if seen.contains o then o :: repeated seen os else repeated (o :: seen) os

def edgeFindings (f : Function) (key : BlockId) (b : Block) : List Finding :=
  (b.uniqueSuccessors.filter fun s => !f.graph.blocks.contains s).map fun s =>
    f.finding key b.terminator.id (.missingSuccessor key s)

/-- What is wrong with the edges, phis and operation numbers of blocks, where `seen` are the
numbers in the blocks before. -/
def blockFindings (f : Function) : List OpId → List (BlockId × Block) → List Finding
  | _, [] => []
  | seen, (key, b) :: rest =>
    f.edgeFindings key b ++ b.phis.flatMap (f.phiFindings key (f.graph.predecessors key)) ++
      (repeated seen b.opIds).map (fun o => f.finding key o (.duplicateOperation o)) ++
      f.blockFindings (seen ++ b.opIds) rest

def entryFindings (f : Function) : List Finding :=
  match (f.graph.predecessors f.graph.entry).head? with
  | none => []
  | some p => [⟨.entryTargeted p f.graph.entry, f.id, some p, none⟩]

def trapFindings (f : Function) : List Finding :=
  match f.trap with
  | none => []
  | some b =>
    if (f.graph.block? b).any fun block => block.terminator.kind = .unreachable then []
    else [⟨.brokenTrap b, f.id, some b, none⟩]

def graphFindings (f : Function) : List Finding :=
  if f.graph.blocks.contains f.graph.entry then
    f.entryFindings ++ f.blockFindings [] f.graph.blocks.entries ++ f.trapFindings
  else [⟨.noEntry f.graph.entry, f.id, none, none⟩]

/-- A definition of a register. Parameters have rank 0, phis rank 1, and instructions follow. -/
structure Definition where
  reg : Reg
  block : BlockId
  rank : Nat
  op : Option OpId
deriving DecidableEq, Repr

def blockDefinitions (key : BlockId) (b : Block) : List Definition :=
  b.phis.map (fun p => ⟨p.kind.dest, key, 1, some p.id⟩) ++
    (b.instructions.mapIdx fun i o => o.kind.dest?.map fun d =>
      Definition.mk d key (i + 2) (some o.id)).filterMap fun d => d

def definitions (f : Function) : List Definition :=
  f.signature.params.map (fun p => ⟨p.reg, f.graph.entry, 0, none⟩) ++
    f.graph.blocks.entries.flatMap fun e => blockDefinitions e.1 e.2

def redefinitions : List Reg → List Definition → List Definition
  | _, [] => []
  | seen, d :: ds =>
    if seen.contains d.reg then d :: redefinitions seen ds
    else redefinitions (d.reg :: seen) ds

/-- A use of a register. Without a rank it is at the end of its block. -/
structure Use where
  reg : Reg
  block : BlockId
  rank : Option Nat
  op : OpId
deriving DecidableEq, Repr

def blockUses (key : BlockId) (b : Block) : List Use :=
  (b.phis.flatMap fun p => p.kind.incoming.filterMap fun e =>
    e.2.reg?.map fun r => Use.mk r e.1 none p.id) ++
  (b.instructions.mapIdx fun i o => o.kind.uses.map fun r =>
    Use.mk r key (some (i + 2)) o.id).flatten ++
  b.terminator.kind.uses.map fun r => ⟨r, key, none, b.terminator.id⟩

def useList (f : Function) : List Use :=
  f.graph.blocks.entries.flatMap fun e => blockUses e.1 e.2

def isBefore (tree : Dominators) (d : Definition) (u : Use) : Bool :=
  if d.block = u.block then u.rank.all fun n => d.rank < n
  else tree.dominates d.block u.block

def useFinding? (f : Function) (defs : List Definition) (tree : Dominators) (u : Use) :
    Option Finding :=
  match defs.find? fun d => d.reg = u.reg with
  | none => some (f.finding u.block u.op (.undefinedRegister u.reg))
  | some d =>
    if isBefore tree d u then none
    else some (f.finding u.block u.op (.notDominated u.reg d.block u.block))

def registerFindings (f : Function) : List Finding :=
  let defs := f.definitions
  let tree := Dominators.ofGraph f.graph
  ((redefinitions [] defs).map fun d => ⟨.redefinedRegister d.reg, f.id, some d.block, d.op⟩) ++
    f.useList.filterMap (f.useFinding? defs.reverse tree)

def callFindings (m : Module) (f : Function) (key : BlockId) (o : Operation Instruction) :
    List Finding :=
  match o.kind with
  | .call dest callee args => match m.function? callee with
    | none => [f.finding key o.id (.unknownCallee callee)]
    | some c =>
      (if c.signature.accepts args.length then []
        else [f.finding key o.id
          (.argumentCount callee c.signature.params.length args.length)]) ++
      if dest.isSome && !c.returnsValue then [f.finding key o.id (.voidResult callee)] else []
  | _ => []

def returnFindings (f : Function) (key : BlockId) (b : Block) : List Finding :=
  match b.terminator.kind with
  | .ret v =>
    if v.isSome = f.returnsValue then []
    else [f.finding key b.terminator.id (.returnMismatch f.id)]
  | _ => []

def signatureFindings (m : Module) (f : Function) : List Finding :=
  f.graph.blocks.entries.flatMap fun e =>
    e.2.instructions.flatMap (callFindings m f e.1) ++ f.returnFindings e.1 e.2

/-- All that is wrong with a function of a module. The registers and the calls are looked at only
if the graph is in order. -/
def findings (m : Module) (f : Function) : List Finding :=
  if f.isDeclaration then []
  else match f.graphFindings with
    | [] => f.registerFindings ++ signatureFindings m f
    | found => found

end Function

def Module.findings (m : Module) : List Finding := m.functionList.flatMap (Function.findings m)

end SiteFusion
