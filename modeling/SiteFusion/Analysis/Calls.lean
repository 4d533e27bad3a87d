import SiteFusion.Code.Module

namespace SiteFusion

structure CallSite where
  caller : FuncId
  callee : FuncId
  block : BlockId
  op : OpId
deriving DecidableEq, Repr

namespace Module

def blockCalls (caller : FuncId) (block : BlockId) (b : Block) : List CallSite :=
  b.instructions.filterMap fun o => o.kind.callee?.map fun c => ⟨caller, c, block, o.id⟩

def functionCalls (caller : FuncId) (f : Function) : List CallSite :=
  f.graph.blocks.entries.flatMap fun e => blockCalls caller e.1 e.2

def callSites (m : Module) : List CallSite :=
  m.functions.entries.flatMap fun e => functionCalls e.1 e.2

def calleesOf (m : Module) (f : FuncId) : List FuncId :=
  match m.function? f with
  | none => []
  | some h => (functionCalls f h).map CallSite.callee

def callsItself (m : Module) (f : FuncId) : Bool :=
  m.callSites.any fun s => s.caller = f && s.callee = f

def isRecursive (m : Module) (f : FuncId) : Bool :=
  m.callsItself f || (search m.calleesOf f (m.functions.size + 1) f []).1

/-- The functions that take part in a cycle of calls. -/
def recursiveFunctions (m : Module) : List FuncId := m.functions.keys.filter m.isRecursive

end Module

end SiteFusion
