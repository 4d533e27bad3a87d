import SiteFusion.Fusion.Rounds
import SiteFusion.Pipeline.Steps

namespace SiteFusion.Fusion

def entryFault? (m : Module) : Option FusionFault :=
  (m.functionList.filter Function.isOptimizable).findSome? fun f =>
    if (f.graph.predecessors f.graph.entry).isEmpty then none
    else some (.spill f.name (.entryTargeted f.graph.entry))

def cleanUp (inner : ModuleTransform) (settings : Settings) : ModuleTransform := fun m =>
  match Pipeline.parse settings.cleanup with
  | .ok p => p.transform inner m
  | .error _ => .ok (m, .unchanged)

def finalFault? (settings : Settings) (m : Module) : Option FusionFault :=
  if settings.verify then
    match m.findings with
    | [] => none
    | found => some (.invalid found)
  else none

/-- Run fusion, with `inner` for fusion that the pipelines ask for. The pipeline before it is read,
and the entry blocks are looked at, before anything is changed. -/
def runWith (inner : ModuleTransform) (settings : Settings) (m : Module) :
    Edit (Module × Except FusionFault Report) :=
  match Pipeline.parse settings.prepare with
  | .error e => .ok (m, .error (.pipeline e))
  | .ok prepare => match entryFault? m with
    | some e => .ok (m, .error e)
    | none => do
      let (m, r) ← prepare.transform inner m
      let (s, e) ← (Rounds.start settings m).run
      match e with
      | some e => return (s.module, .error e)
      | none =>
        let (m, t) ← cleanUp inner settings s.module
        match finalFault? settings m with
        | some e => return (m, .error e)
        | none => return (m, .ok ((r.combine s.count.report).combine t))

def passWith (inner : ModuleTransform) (settings : Settings) : ModuleTransform := fun m => do
  let (m, r) ← runWith inner settings m
  match r with
  | .ok r => return (m, r)
  | .error _ => return (m, .unchanged)

def standard : ModuleTransform := passWith (fun m => .ok (m, .unchanged)) .default

def run (settings : Settings) (m : Module) : Edit (Module × Except FusionFault Report) :=
  runWith standard settings m

def pass (settings : Settings) : ModuleTransform := passWith standard settings

end SiteFusion.Fusion
