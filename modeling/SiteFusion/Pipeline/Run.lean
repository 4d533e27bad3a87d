import SiteFusion.Fusion.Pass

namespace SiteFusion

def Pass.run (p : Pass) : ModuleTransform := p.transform Fusion.standard

def Pass.runOnFunction : Pass → FunctionTransform
  | .onFunctions p, f => p.transform f
  | .onModule _, f => .ok (f, .unchanged)

def Pipeline.run (p : Pipeline) : ModuleTransform := p.transform Fusion.standard

def Pipeline.runText (s : String) (m : Module) :
    Edit (Except Pipeline.Fault (Module × Report)) :=
  match Pipeline.parse s with
  | .error e => .ok (.error e)
  | .ok p => do
    let r ← p.run m
    return .ok r

namespace Pass

def runOnce : List Pass → ModuleTransform
  | [], m => .ok (m, .unchanged)
  | p :: ps, m => do
    let (m, r) ← p.run m
    let (m, s) ← runOnce ps m
    return (m, r.combine s)

/-- Run passes again and again, until nothing changes or a number of rounds is over. -/
def runRounds (ps : List Pass) : Nat → Module → Report → Edit (Module × Report)
  | 0, m, r => .ok (m, r)
  | n + 1, m, r => do
    let (m, s) ← runOnce ps m
    if s.modified then runRounds ps n m (r.combine s) else return (m, r.combine s)

def maxRounds : Nat := 16

def runAll (ps : List Pass) : ModuleTransform := fun m => runRounds ps maxRounds m .unchanged

end Pass

end SiteFusion
