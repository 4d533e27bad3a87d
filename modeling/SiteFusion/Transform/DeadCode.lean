import SiteFusion.Transform.Report

namespace SiteFusion.DeadCode

def keepsPhi (used : List Reg) (p : Phi) : Bool := used.contains p.dest

def keeps (used : List Reg) (i : Instruction) : Bool :=
  match i.dest? with
  | some d => used.contains d || i.hasEffect
  | none => true

def sweepBlock (used : List Reg) (b : Block) : Block :=
  { b with
    phis := b.phis.filter fun p => keepsPhi used p.kind
    instructions := b.instructions.filter fun o => keeps used o.kind }

def sweep (f : Function) : Function :=
  let used := f.uses.eraseDups
  { f with graph := f.graph.mapBlocks (sweepBlock used) }

def size (f : Function) : Nat :=
  (f.graph.blockList.flatMap Block.phis).length + f.instructionCount

def settle : Nat → Function → Function
  | 0, f => f
  | n + 1, f =>
    let g := sweep f
    if size g = size f then f else settle n g

/-- Remove dead code. Each sweep but the last removes something. -/
def eliminate (f : Function) : Function := settle (size f + 1) f

def transform : FunctionTransform := fun f =>
  let g := eliminate f
  let removed := size f - size g
  if removed = 0 then .ok (g, .unchanged)
  else .ok (g, { Report.changed with instructionsEliminated := removed })

end SiteFusion.DeadCode
