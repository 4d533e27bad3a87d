import SiteFusion.Code.Instruction

namespace SiteFusion

inductive Terminator
  | branch (target : BlockId)
  | condBranch (condition : Operand) (ifTrue ifFalse : BlockId)
  | switch (value : Operand) (cases : List (Int64 × BlockId)) (default : BlockId)
  | ret (value : Option Operand)
  | unreachable
deriving DecidableEq, Repr

namespace Terminator

/-- The targets in the order of the edges; a block may be the target of several. -/
def successors : Terminator → List BlockId
  | .branch t => [t]
  | .condBranch _ t e => [t, e]
  | .switch _ cases d => cases.map Prod.snd ++ [d]
  | .ret _ | .unreachable => []

def operands : Terminator → List Operand
  | .condBranch c _ _ => [c]
  | .switch v _ _ => [v]
  | .ret (some v) => [v]
  | _ => []

def mapOperands (f : Operand → Operand) : Terminator → Terminator
  | .condBranch c t e => .condBranch (f c) t e
  | .switch v cases d => .switch (f v) cases d
  | .ret v => .ret (v.map f)
  | t => t

def mapTargets (f : BlockId → BlockId) : Terminator → Terminator
  | .branch t => .branch (f t)
  | .condBranch c t e => .condBranch c (f t) (f e)
  | .switch v cases d => .switch v (cases.map fun c => (c.1, f c.2)) (f d)
  | t => t

def uses (t : Terminator) : List Reg := t.operands.filterMap Operand.reg?

def replaceUse (t : Terminator) (old : Reg) (new : Operand) : Terminator :=
  t.mapOperands fun o => o.replace old new

def redirect (t : Terminator) (old new : BlockId) : Terminator :=
  t.mapTargets fun b => if b = old then new else b

def caseText (c : Int64 × BlockId) : String := intText c.1.toInt ++ " => " ++ c.2.text

def text : Terminator → String
  | .branch t => "br " ++ t.text
  | .condBranch c t e => "br_if " ++ c.text ++ ", " ++ t.text ++ ", " ++ e.text
  | .switch v cases d =>
    "switch " ++ v.text ++ " [" ++ ", ".intercalate (cases.map caseText) ++ "] default " ++ d.text
  | .ret (some v) => "ret " ++ v.text
  | .ret none => "ret void"
  | .unreachable => "unreachable"

end Terminator

/-- A register whose value depends on the block that control comes from. -/
structure Phi where
  dest : Reg
  incoming : List (BlockId × Operand)
  ty : Ty
deriving DecidableEq, Repr

namespace Phi

def incomingFor (p : Phi) (pred : BlockId) : Option Operand := p.incoming.lookup pred

/-- Expect from `new` what was expected from `old`. -/
def retarget (p : Phi) (old new : BlockId) : Phi :=
  { p with incoming := p.incoming.map fun e => (if e.1 = old then new else e.1, e.2) }

def removeIncoming (p : Phi) (pred : BlockId) : Phi :=
  { p with incoming := p.incoming.filter fun e => e.1 ≠ pred }

def mapOperands (p : Phi) (f : Operand → Operand) : Phi :=
  { p with incoming := p.incoming.map fun e => (e.1, f e.2) }

def uses (p : Phi) : List Reg := p.incoming.filterMap fun e => e.2.reg?

def incomingText (e : BlockId × Operand) : String := "[" ++ e.1.text ++ ": " ++ e.2.text ++ "]"

def text (p : Phi) : String :=
  p.dest.text ++ " = phi " ++ p.ty.text ++ " " ++ ", ".intercalate (p.incoming.map incomingText)

end Phi

end SiteFusion
