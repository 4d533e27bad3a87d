import SiteFusion.Transform.Report

namespace SiteFusion.Globals

def neverStored (m : Module) : List GlobalId :=
  (m.globals.values.filter fun g =>
    g.mutable && g.linkage.isLocal && g.initializer.isSome && !m.isStored g.id).map Global.id

def foldable (m : Module) : List (GlobalId × Const) :=
  (m.globals.values.filterMap fun g =>
    if !g.mutable && g.linkage ≠ .external then g.initializer.map fun c => (g.id, c)
    else none).reverse

def neverLoaded (m : Module) : List GlobalId :=
  (m.globals.values.filter fun g => g.linkage.isLocal && !m.isLoaded g.id).map Global.id

def foldLoad (known : List (GlobalId × Const)) : Instruction → Instruction
  | .loadGlobal d g t => match known.lookup g with
    | some c => .const d c
    | none => .loadGlobal d g t
  | i => i

def foldsLoad (known : List (GlobalId × Const)) : Instruction → Bool
  | .loadGlobal _ g _ => (known.lookup g).isSome
  | _ => false

def isIdleStore (idle : List GlobalId) : Instruction → Bool
  | .storeGlobal g _ => idle.contains g
  | _ => false

def simplifyBlock (known : List (GlobalId × Const)) (idle : List GlobalId) (b : Block) : Block :=
  let b := b.mapInstructions (foldLoad known)
  { b with instructions := b.instructions.filter fun o => !isIdleStore idle o.kind }

def simplifyFunction (known : List (GlobalId × Const)) (idle : List GlobalId) (f : Function) :
    Function :=
  if f.isOptimizable then { f with graph := f.graph.mapBlocks (simplifyBlock known idle) } else f

/-- How many instructions of functions that may be changed pass a test. -/
def countIn (m : Module) (test : Instruction → Bool) : Nat :=
  (((m.functionList.filter Function.isOptimizable).flatMap Function.instructions).filter
    fun o => test o.kind).length

/-- Make constants of variables that are never stored, fold loads of constants, and drop stores
that nobody can see. -/
def simplify : ModuleTransform := fun m =>
  let settled := (neverStored m).filter m.globals.contains
  let m := { m with
    globals := m.globals.mapWithKey fun k g =>
      if settled.contains k then { g with mutable := false } else g }
  let known := foldable m
  let idle := neverLoaded m
  let folded := countIn m (foldsLoad known)
  let removed := countIn m (isIdleStore idle)
  let r := if settled.isEmpty then Report.unchanged else .changed
  let r :=
    if 0 < folded + removed then
      ({ r with modified := true, instructionsEliminated := removed }.count
        "global_loads_folded" folded).count "global_stores_removed" removed
    else r
  .ok ({ m with functions := m.functions.map (simplifyFunction known idle) }, r)

def liveFunctions (m : Module) : List FuncId :=
  let roots := (m.functionList.filter fun f => !f.attributes.linkage.isLocal).map Function.id
  let next := fun f => ((m.function? f).map Function.functions).getD []
  reach next ((m.functionList.flatMap Function.functions).length + roots.length) roots []

def liveGlobals (m : Module) : List GlobalId :=
  let exported := (m.globals.values.filter fun g => !g.linkage.isLocal).map Global.id
  exported ++ (liveFunctions m).flatMap fun f => match m.function? f with
    | none => []
    | some h => h.instructions.filterMap fun o => o.kind.global?

def prune : ModuleTransform := fun m =>
  let functions := liveFunctions m
  let globals := liveGlobals m
  let deadFunctions := m.functions.keys.filter fun f => !functions.contains f
  let deadGlobals := m.globals.keys.filter fun g => !globals.contains g
  if deadFunctions.isEmpty && deadGlobals.isEmpty then .ok (m, .unchanged)
  else
    let r := (Report.changed.count "functions_removed" deadFunctions.length).count
      "globals_removed" deadGlobals.length
    .ok ({ m with
      functions := m.functions.filter fun f _ => functions.contains f
      globals := m.globals.filter fun g _ => globals.contains g }, r)

end SiteFusion.Globals
