import SiteFusion.Analysis.Calls
import SiteFusion.Fusion.Settings

namespace SiteFusion

structure CallGroup where
  callee : FuncId
  calls : List OpId
deriving DecidableEq, Repr

/-- The calls in one caller, by callee. -/
structure CallerGroups where
  caller : FuncId
  groups : List CallGroup
deriving DecidableEq, Repr

namespace Candidates

def isEligible (recursive : List FuncId) (caller : FuncId) (callee : Function) : Bool :=
  callee.id ≠ caller && !callee.isIntrinsic && callee.isOptimizable &&
    !callee.signature.varargs && !recursive.contains callee.id

def isCaller (settings : Settings) (f : Function) : Bool :=
  f.isOptimizable && f.instructionCount ≠ 0 &&
    (f.attributes.inline ≠ .never || settings.ignoreNoInline)

def addCall : List CallGroup → FuncId × OpId → List CallGroup
  | [], (c, o) => [⟨c, [o]⟩]
  | g :: gs, (c, o) =>
    if g.callee = c then ⟨g.callee, g.calls ++ [o]⟩ :: gs else g :: addCall gs (c, o)

def calls (m : Module) (excluded : List (FuncId × OpId)) (recursive : List FuncId)
    (caller : FuncId) (f : Function) : List (FuncId × OpId) :=
  (Module.functionCalls caller f).filterMap fun s =>
    if excluded.contains (caller, s.op) then none
    else match m.function? s.callee with
      | none => none
      | some c => if isEligible recursive caller c then some (s.callee, s.op) else none

def groupsOf (m : Module) (excluded : List (FuncId × OpId)) (recursive : List FuncId)
    (caller : FuncId) (f : Function) : List CallGroup :=
  (calls m excluded recursive caller f).foldl addCall []

def discover (m : Module) (excluded : List (FuncId × OpId)) (settings : Settings) :
    List CallerGroups :=
  let recursive := m.recursiveFunctions
  m.functions.entries.filterMap fun e =>
    if isCaller settings e.2 then
      match groupsOf m excluded recursive e.1 e.2 with
      | [] => none
      | groups => some ⟨e.1, groups⟩
    else none

end Candidates

end SiteFusion
