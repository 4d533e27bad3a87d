import SiteFusion.Code.Module

namespace SiteFusion

inductive Value
  | undefined
  | bool (b : Bool)
  | i8 (v : Int8)
  | i32 (v : Int32)
  | i64 (v : Int64)
  | f64 (v : Float)
  | ptr (cell : Nat)
  | null
  | func (f : FuncId)
deriving DecidableEq, Repr

namespace Value

/-- The integer `v` as an argument for a parameter of a type. -/
def ofInteger (v : Int64) : Ty → Value
  | .bool => .bool (v ≠ 0)
  | .i8 => .i8 v.toInt8
  | .i32 => .i32 v.toInt32
  | .f64 => .f64 v.toFloat
  | _ => .i64 v

def integer? : Value → Option Int64
  | .bool b => some (if b then 1 else 0)
  | .i8 v => some v.toInt64
  | .i32 v => some v.toInt64
  | .i64 v => some v
  | _ => none

def truth? : Value → Option Bool
  | .bool b => some b
  | v => v.integer?.map fun i => i ≠ 0

def ofWidth : Value → Int64 → Value
  | .bool _, i => .bool (i &&& 1 ≠ 0)
  | .i8 _, i => .i8 i.toInt8
  | .i32 _, i => .i32 i.toInt32
  | _, i => .i64 i

def ofConst : Const → Value
  | .undefined => .undefined
  | .null => .null
  | .bool b => .bool b
  | .i8 v => .i8 v
  | .i32 v => .i32 v
  | .i64 v => .i64 v
  | .f64 v => .f64 v

def text : Value → String
  | .undefined => "undef"
  | .bool b => boolText b
  | .i8 v => intText v.toInt
  | .i32 v => intText v.toInt
  | .i64 v => intText v.toInt
  | .f64 v => Text.float v
  | .ptr c => "ptr(" ++ toString c ++ ")"
  | .null => "null"
  | .func f => "&" ++ f.text

end Value

/-- Why a run ends without a result. -/
inductive Fault
  | unknownFunction (name : String)
  | declaration (name : String)
  | argumentCount (function : String) (expected found : Nat)
  | unreachable (function : String) (block : BlockId)
  | inlineAsm (function : String)
  | missingBlock (function : String) (block : BlockId)
  | missingIncoming (function : String) (block : BlockId)
  | undefinedRegister (function : String) (register : Reg)
  | divisionByZero
  | notACell (v : Value)
  | unknownGlobal (g : GlobalId)
  | notAFunction (v : Value)
  | branchOn (v : Value)
  | switchOn (v : Value)
  | selectOn (v : Value)
  | onFloats (op : BinaryOp)
  | onIntegers (op : BinaryOp)
  | binaryOn (op : BinaryOp) (left right : Value)
  | unaryOn (op : UnaryOp) (v : Value)
  | orderedNull
  | incomparable (left right : Value)
  | tooDeep
  | outOfSteps
deriving DecidableEq, Repr

def depthLimit : Nat := 256

def Fault.message : Fault → String
  | .unknownFunction n => "unknown function '" ++ n ++ "'"
  | .declaration n => "cannot execute declaration '" ++ n ++ "'"
  | .argumentCount f e n =>
    "'" ++ f ++ "' expects " ++ toString e ++ " arguments, got " ++ toString n
  | .unreachable f b => "reached unreachable in '" ++ f ++ "' at " ++ b.text
  | .inlineAsm f => "inline assembly in '" ++ f ++ "'"
  | .missingBlock f b => "'" ++ f ++ "' branches to missing block " ++ b.text
  | .missingIncoming f b =>
    "phi in '" ++ f ++ "' at " ++ b.text ++ " has no value for the taken edge"
  | .undefinedRegister f r =>
    "register " ++ r.text ++ " read before definition in '" ++ f ++ "'"
  | .divisionByZero => "division by zero"
  | .notACell v => "invalid pointer: " ++ v.text
  | .unknownGlobal g => "invalid pointer: " ++ g.text
  | .notAFunction v => "invalid pointer: call through " ++ v.text
  | .branchOn v => "type mismatch: branch on " ++ v.text
  | .switchOn v => "type mismatch: switch on " ++ v.text
  | .selectOn v => "type mismatch: select on " ++ v.text
  | .onFloats op => "type mismatch: " ++ op.name ++ " on f64"
  | .onIntegers op => "type mismatch: " ++ op.name ++ " on integers"
  | .binaryOn op l r => "type mismatch: " ++ op.name ++ " on " ++ l.text ++ " and " ++ r.text
  | .unaryOn op v => "type mismatch: " ++ op.text ++ " on " ++ v.text
  | .orderedNull => "type mismatch: ordered compare against null"
  | .incomparable l r => "type mismatch: compare " ++ l.text ++ " with " ++ r.text
  | .tooDeep => "call depth limit of " ++ toString depthLimit ++ " exceeded"
  | .outOfSteps => "step budget exhausted"

end SiteFusion
