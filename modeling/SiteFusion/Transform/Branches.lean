import SiteFusion.Transform.Report

namespace SiteFusion.Branches

def constants (f : Function) : List (Reg × Const) :=
  (f.instructions.filterMap fun o => match o.kind with
    | .const d c => some (d, c)
    | _ => none).reverse

def resolve (known : List (Reg × Const)) : Operand → Option Const
  | .const c => some c
  | .reg r => known.lookup r

/-- Where a terminator leads in any case, if it is not a plain branch already. -/
def outcome? (known : List (Reg × Const)) : Terminator → Option BlockId
  | .condBranch c t e =>
    if t = e then some t
    else match resolve known c with
      | some (.bool b) => some (if b then t else e)
      | _ => none
  | .switch v cases d => do
    let c ← resolve known v
    let i ← c.integer?
    return (cases.lookup i).getD d
  | _ => none

def foldable (f : Function) : List (BlockId × BlockId) :=
  let known := constants f
  f.graph.blockList.filterMap fun b =>
    (outcome? known b.terminator.kind).map fun t => (b.id, t)

def foldBranch (f : Function) (b target : BlockId) : Edit Function :=
  match f.graph.block? b with
  | none => .ok f
  | some block => do
    let (f, branch) ← f.op (Terminator.branch target) block.terminator.tags
    let f := f.modifyBlock b fun block => { block with terminator := branch }
    let others := block.successors.filter fun s => s ≠ target
    return { f with
      graph := f.graph.modifyBlocks others fun s => s.mapPhis fun p => p.removeIncoming b }

def foldAll : List (BlockId × BlockId) → Function → Edit Function
  | [], f => .ok f
  | (b, t) :: rest, f => do
    let f ← foldBranch f b t
    foldAll rest f

def transform : FunctionTransform := fun f => do
  let folds := foldable f
  let f ← foldAll folds f
  let removed := f.deadBlocks.length
  let f := f.removeDeadBlocks
  if folds.length = 0 ∧ removed = 0 then return (f, .unchanged)
  else
    let r := { Report.changed with blocksEliminated := removed }
    return (f, r.count "branches_folded" folds.length)

end SiteFusion.Branches
