import SiteFusion.Code.Operand
import SiteFusion.Code.Tag

namespace SiteFusion

/-- Something that happens in a block, with the number it is known by and its notes. -/
structure Operation (κ : Type) where
  id : OpId
  kind : κ
  tags : Tags
deriving DecidableEq, Repr

inductive BinaryOp
  | add | sub | mul | div | rem
  | and | or | xor | shl | shr
  | fadd | fsub | fmul | fdiv
deriving DecidableEq, Repr

inductive UnaryOp
  | neg | not | fneg
deriving DecidableEq, Repr

inductive CompareOp
  | eq | ne | lt | le | gt | ge
deriving DecidableEq, Repr

inductive Instruction
  | const (dest : Reg) (value : Const)
  | copy (dest : Reg) (source : Operand)
  | binary (dest : Reg) (op : BinaryOp) (left right : Operand)
  | unary (dest : Reg) (op : UnaryOp) (operand : Operand)
  | compare (dest : Reg) (op : CompareOp) (left right : Operand)
  | select (dest : Reg) (condition ifTrue ifFalse : Operand)
  | alloca (dest : Reg) (ty : Ty)
  | load (dest : Reg) (ptr : Operand) (ty : Ty)
  | store (ptr value : Operand)
  | loadGlobal (dest : Reg) (global : GlobalId) (ty : Ty)
  | storeGlobal (global : GlobalId) (value : Operand)
  | call (dest : Option Reg) (callee : FuncId) (args : List Operand)
  | callIndirect (dest : Option Reg) (target : Operand) (args : List Operand)
  | inlineAsm (dest : Option Reg) (asm : String) (inputs : List Operand)
  | functionRef (dest : Reg) (callee : FuncId)
  | marker
deriving DecidableEq, Repr

namespace Instruction

def dest? : Instruction → Option Reg
  | .const d _ | .copy d _ | .binary d _ _ _ | .unary d _ _ | .compare d _ _ _
  | .select d _ _ _ | .alloca d _ | .load d _ _ | .loadGlobal d _ _ | .functionRef d _ => some d
  | .call d _ _ | .callIndirect d _ _ | .inlineAsm d _ _ => d
  | .store _ _ | .storeGlobal _ _ | .marker => none

def mapDest (f : Reg → Reg) : Instruction → Instruction
  | .const d c => .const (f d) c
  | .copy d s => .copy (f d) s
  | .binary d op l r => .binary (f d) op l r
  | .unary d op o => .unary (f d) op o
  | .compare d op l r => .compare (f d) op l r
  | .select d c a b => .select (f d) c a b
  | .alloca d t => .alloca (f d) t
  | .load d p t => .load (f d) p t
  | .loadGlobal d g t => .loadGlobal (f d) g t
  | .functionRef d c => .functionRef (f d) c
  | .call d c args => .call (d.map f) c args
  | .callIndirect d p args => .callIndirect (d.map f) p args
  | .inlineAsm d asm ins => .inlineAsm (d.map f) asm ins
  | i => i

def operands : Instruction → List Operand
  | .const _ _ | .alloca _ _ | .loadGlobal _ _ _ | .functionRef _ _ | .marker => []
  | .copy _ s => [s]
  | .binary _ _ l r | .compare _ _ l r => [l, r]
  | .unary _ _ o => [o]
  | .select _ c a b => [c, a, b]
  | .load _ p _ => [p]
  | .store p v => [p, v]
  | .storeGlobal _ v => [v]
  | .call _ _ args => args
  | .callIndirect _ p args => p :: args
  | .inlineAsm _ _ ins => ins

def mapOperands (f : Operand → Operand) : Instruction → Instruction
  | .copy d s => .copy d (f s)
  | .binary d op l r => .binary d op (f l) (f r)
  | .unary d op o => .unary d op (f o)
  | .compare d op l r => .compare d op (f l) (f r)
  | .select d c a b => .select d (f c) (f a) (f b)
  | .load d p t => .load d (f p) t
  | .store p v => .store (f p) (f v)
  | .storeGlobal g v => .storeGlobal g (f v)
  | .call d c args => .call d c (args.map f)
  | .callIndirect d p args => .callIndirect d (f p) (args.map f)
  | .inlineAsm d asm ins => .inlineAsm d asm (ins.map f)
  | i => i

def uses (i : Instruction) : List Reg := i.operands.filterMap Operand.reg?

def reads (i : Instruction) (r : Reg) : Bool := i.uses.contains r

/-- Read `new` wherever register `old` was read. -/
def replaceUse (i : Instruction) (old : Reg) (new : Operand) : Instruction :=
  i.mapOperands fun o => o.replace old new

/-- Whether the instruction has to stay even if its result is not read. -/
def hasEffect : Instruction → Bool
  | .store _ _ | .storeGlobal _ _ | .call _ _ _ | .callIndirect _ _ _ | .inlineAsm _ _ _
  | .marker => true
  | _ => false

def isAlloca : Instruction → Bool
  | .alloca _ _ => true
  | _ => false

/-- The function that is called directly or whose address is taken. -/
def function? : Instruction → Option FuncId
  | .call _ c _ | .functionRef _ c => some c
  | _ => none

def global? : Instruction → Option GlobalId
  | .loadGlobal _ g _ | .storeGlobal g _ => some g
  | _ => none

def callee? : Instruction → Option FuncId
  | .call _ c _ => some c
  | _ => none

end Instruction

namespace BinaryOp

def text : BinaryOp → String
  | .add => "add" | .sub => "sub" | .mul => "mul" | .div => "div" | .rem => "rem"
  | .and => "and" | .or => "or" | .xor => "xor" | .shl => "shl" | .shr => "shr"
  | .fadd => "fadd" | .fsub => "fsub" | .fmul => "fmul" | .fdiv => "fdiv"

/-- The name in documents and in messages. -/
def name : BinaryOp → String
  | .add => "Add" | .sub => "Sub" | .mul => "Mul" | .div => "Div" | .rem => "Rem"
  | .and => "And" | .or => "Or" | .xor => "Xor" | .shl => "Shl" | .shr => "Shr"
  | .fadd => "FAdd" | .fsub => "FSub" | .fmul => "FMul" | .fdiv => "FDiv"

def all : List BinaryOp :=
  [.add, .sub, .mul, .div, .rem, .and, .or, .xor, .shl, .shr, .fadd, .fsub, .fmul, .fdiv]

end BinaryOp

namespace UnaryOp

def text : UnaryOp → String
  | .neg => "neg" | .not => "not" | .fneg => "fneg"

def name : UnaryOp → String
  | .neg => "Neg" | .not => "Not" | .fneg => "FNeg"

def all : List UnaryOp := [.neg, .not, .fneg]

end UnaryOp

namespace CompareOp

def text : CompareOp → String
  | .eq => "eq" | .ne => "ne" | .lt => "lt" | .le => "le" | .gt => "gt" | .ge => "ge"

def name : CompareOp → String
  | .eq => "Eq" | .ne => "Ne" | .lt => "Lt" | .le => "Le" | .gt => "Gt" | .ge => "Ge"

def all : List CompareOp := [.eq, .ne, .lt, .le, .gt, .ge]

end CompareOp

namespace Instruction

def destText : Option Reg → String
  | none => ""
  | some d => d.text ++ " = "

def text : Instruction → String
  | .const d c => d.text ++ " = const " ++ c.text
  | .copy d s => d.text ++ " = copy " ++ s.text
  | .binary d op l r => d.text ++ " = " ++ op.text ++ " " ++ l.text ++ ", " ++ r.text
  | .unary d op o => d.text ++ " = " ++ op.text ++ " " ++ o.text
  | .compare d op l r => d.text ++ " = cmp " ++ op.text ++ " " ++ l.text ++ ", " ++ r.text
  | .select d c a b => d.text ++ " = select " ++ c.text ++ ", " ++ a.text ++ ", " ++ b.text
  | .alloca d t => d.text ++ " = alloca " ++ t.text
  | .load d p t => d.text ++ " = load " ++ t.text ++ " " ++ p.text
  | .store p v => "store " ++ p.text ++ ", " ++ v.text
  | .loadGlobal d g t => d.text ++ " = load_global " ++ t.text ++ " " ++ g.text
  | .storeGlobal g v => "store_global " ++ g.text ++ ", " ++ v.text
  | .call d c args => destText d ++ "call " ++ c.text ++ "(" ++ operandsText args ++ ")"
  | .callIndirect d p args =>
    destText d ++ "call_indirect " ++ p.text ++ "(" ++ operandsText args ++ ")"
  | .inlineAsm d asm ins =>
    destText d ++ "asm " ++ Text.quote asm ++ "(" ++ operandsText ins ++ ")"
  | .functionRef d c => d.text ++ " = func_ref " ++ c.text
  | .marker => "marker"

end Instruction

end SiteFusion
