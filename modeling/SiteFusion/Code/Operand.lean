import SiteFusion.Code.Ident
import SiteFusion.Text.Decimal

namespace SiteFusion

inductive Ty
  | void
  | bool
  | i8
  | i32
  | i64
  | f64
  | ptr (pointee : Ty)
  | fnPtr
deriving DecidableEq, Repr

inductive Const
  | undefined
  | null
  | bool (b : Bool)
  | i8 (v : Int8)
  | i32 (v : Int32)
  | i64 (v : Int64)
  | f64 (v : Float)
deriving DecidableEq, Repr

/-- An input of an operation. -/
inductive Operand
  | reg (r : Reg)
  | const (c : Const)
deriving DecidableEq, Repr

namespace Ty

def isVoid (t : Ty) : Bool := t = .void

def isInteger : Ty → Bool
  | .i8 | .i32 | .i64 => true
  | _ => false

def isPointer : Ty → Bool
  | .ptr _ => true
  | _ => false

def pointee? : Ty → Option Ty
  | .ptr t => some t
  | _ => none

/-- The value that a fresh cell of the type holds. -/
def zero : Ty → Const
  | .void => .undefined
  | .bool => .bool false
  | .i8 => .i8 0
  | .i32 => .i32 0
  | .i64 => .i64 0
  | .f64 => .f64 0.0
  | .ptr _ | .fnPtr => .null

def text : Ty → String
  | .void => "void"
  | .bool => "bool"
  | .i8 => "i8"
  | .i32 => "i32"
  | .i64 => "i64"
  | .f64 => "f64"
  | .ptr t => "*" ++ t.text
  | .fnPtr => "fnptr"

end Ty

def boolText (b : Bool) : String := if b then "true" else "false"

def intText (i : Int) : String := if i < 0 then "-" ++ toString i.natAbs else toString i.natAbs

namespace Const

/-- The type of a constant. An undefined value has no type of its own, a null pointer points to
bytes. -/
def ty : Const → Ty
  | .undefined => .void
  | .null => .ptr .i8
  | .bool _ => .bool
  | .i8 _ => .i8
  | .i32 _ => .i32
  | .i64 _ => .i64
  | .f64 _ => .f64

def integer? : Const → Option Int64
  | .i8 v => some v.toInt64
  | .i32 v => some v.toInt64
  | .i64 v => some v
  | _ => none

def text : Const → String
  | .undefined => "undef"
  | .null => "null"
  | .bool b => boolText b
  | .i8 v => intText v.toInt ++ "i8"
  | .i32 v => intText v.toInt ++ "i32"
  | .i64 v => intText v.toInt ++ "i64"
  | .f64 v => Text.float v ++ "f64"

end Const

namespace Operand

def reg? : Operand → Option Reg
  | .reg r => some r
  | .const _ => none

def const? : Operand → Option Const
  | .reg _ => none
  | .const c => some c

def isReg (o : Operand) (r : Reg) : Bool := o = .reg r

def int (v : Int64) : Operand := .const (.i64 v)

/-- The operand with `new` in the place of register `old`. -/
def replace (o : Operand) (old : Reg) (new : Operand) : Operand := if o.isReg old then new else o

def text : Operand → String
  | .reg r => r.text
  | .const c => c.text

end Operand

def operandsText (os : List Operand) : String := ", ".intercalate (os.map Operand.text)

end SiteFusion
