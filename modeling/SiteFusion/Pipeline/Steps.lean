import SiteFusion.Pipeline.Grammar
import SiteFusion.Transform.Branches
import SiteFusion.Transform.DeadCode
import SiteFusion.Transform.Duplicates
import SiteFusion.Transform.Globals
import SiteFusion.Transform.Spill

namespace SiteFusion

def FunctionPass.transform : FunctionPass → FunctionTransform
  | .simplifyCfg => Branches.transform
  | .deadCode => DeadCode.transform
  | .spill => Spill.transform

variable (fuse : ModuleTransform)

def ModulePass.transform : ModulePass → ModuleTransform
  | .mergeConstants => Duplicates.mergeConstants
  | .simplifyGlobals => Globals.simplify
  | .pruneGlobals => Globals.prune
  | .mergeFunctions => Duplicates.mergeFunctions
  | .fuse => fuse

def Pass.transform : Pass → ModuleTransform
  | .onFunctions p => eachFunction p.transform
  | .onModule p => p.transform fuse

/-- Run passes on one function, one after the other. -/
def runPasses : List FunctionPass → FunctionTransform
  | [], f => .ok (f, .unchanged)
  | p :: ps, f => do
    let (f, r) ← p.transform f
    let (f, s) ← runPasses ps f
    return (f, r.combine s)

def Step.transform : Step → ModuleTransform
  | .pass p => p.transform fuse
  | .functions ps => eachFunction (runPasses ps)

namespace Pipeline

def transform : Pipeline → ModuleTransform
  | [], m => .ok (m, .unchanged)
  | s :: rest, m => do
    let (m, r) ← s.transform fuse m
    let (m, t) ← transform rest m
    return (m, r.combine t)

end Pipeline

end SiteFusion
