import SiteFusion.Code.Module

namespace SiteFusion

structure Report where
  modified : Bool
  instructionsEliminated : Nat
  blocksEliminated : Nat
  stats : Table String Nat
deriving DecidableEq

namespace Report

def unchanged : Report := ⟨false, 0, 0, .empty⟩

def changed : Report := { unchanged with modified := true }

def count (r : Report) (name : String) (n : Nat) : Report :=
  { r with stats := r.stats.insert name ((r.stats.get? name).getD 0 + n) }

def stat (r : Report) (name : String) : Nat := (r.stats.get? name).getD 0

def counters (r : Report) : List (String × Nat) := r.stats.entries.mergeSort fun a b => a.1 ≤ b.1

/-- What two transformations did, one after the other. -/
def combine (a b : Report) : Report :=
  { modified := a.modified || b.modified
    instructionsEliminated := a.instructionsEliminated + b.instructionsEliminated
    blocksEliminated := a.blocksEliminated + b.blocksEliminated
    stats := (b.stats.entries.foldl (fun r e => r.count e.1 e.2) a).stats }

end Report

abbrev FunctionTransform := Function → Edit (Function × Report)

abbrev ModuleTransform := Module → Edit (Module × Report)

/-- Transform the functions under some keys in turn. -/
def transformEach (transform : FunctionTransform) :
    List FuncId → Module → Report → Edit (Module × Report)
  | [], m, r => .ok (m, r)
  | k :: ks, m, r => match m.function? k with
    | none => transformEach transform ks m r
    | some f =>
      if f.isOptimizable then do
        let (f, s) ← transform f
        transformEach transform ks (m.setFunction k f) (r.combine s)
      else transformEach transform ks m r

def eachFunction (transform : FunctionTransform) : ModuleTransform := fun m =>
  transformEach transform m.functions.keys m .unchanged

end SiteFusion
