import SiteFusion.Machine.Value

namespace SiteFusion.Machine

def binaryFloat (op : BinaryOp) (l r : Float) : Except Fault Value :=
  match op with
  | .fadd | .add => .ok (.f64 (l + r))
  | .fsub | .sub => .ok (.f64 (l - r))
  | .fmul | .mul => .ok (.f64 (l * r))
  | .fdiv | .div => .ok (.f64 (l / r))
  | _ => .error (.onFloats op)

/-- Shifts go by the amount modulo 64, division goes toward zero. -/
def binaryInteger (op : BinaryOp) (l r : Int64) : Except Fault Int64 :=
  match op with
  | .add => .ok (l + r)
  | .sub => .ok (l - r)
  | .mul => .ok (l * r)
  | .div => if r = 0 then .error .divisionByZero else .ok (l / r)
  | .rem => if r = 0 then .error .divisionByZero else .ok (l % r)
  | .and => .ok (l &&& r)
  | .or => .ok (l ||| r)
  | .xor => .ok (l ^^^ r)
  | .shl => .ok (l <<< r)
  | .shr => .ok (l >>> r)
  | .fadd | .fsub | .fmul | .fdiv => .error (.onIntegers op)

def binary (op : BinaryOp) (left right : Value) : Except Fault Value :=
  match left, right with
  | .f64 l, .f64 r => binaryFloat op l r
  | left, right => match left.integer?, right.integer? with
    | some l, some r => (binaryInteger op l r).map left.ofWidth
    | _, _ => .error (.binaryOn op left right)

def unary (op : UnaryOp) (v : Value) : Except Fault Value :=
  match op, v with
  | .fneg, .f64 x => .ok (.f64 (-x))
  | .neg, .f64 x => .ok (.f64 (-x))
  | .not, .bool b => .ok (.bool !b)
  | .neg, v => match v.integer? with
    | some i => .ok (v.ofWidth (-i))
    | none => .error (.unaryOn .neg v)
  | .not, v => match v.integer? with
    | some i => .ok (v.ofWidth (~~~i))
    | none => .error (.unaryOn .not v)
  | .fneg, v => .error (.unaryOn .fneg v)

def holds (op : CompareOp) (o : Ordering) : Bool :=
  match op with
  | .eq => o.isEq
  | .ne => o.isNe
  | .lt => o.isLT
  | .le => o.isLE
  | .gt => o.isGT
  | .ge => o.isGE

def orderFloats (l r : Float) : Option Ordering :=
  if l < r then some .lt else if l == r then some .eq else if r < l then some .gt else none

def orderNats (l r : Nat) : Ordering := if l < r then .lt else if l = r then .eq else .gt

def orderIntegers (l r : Int64) : Ordering := if l < r then .lt else if l = r then .eq else .gt

/-- Nothing holds of a value that is not a number, but that it differs. -/
def compare (op : CompareOp) (left right : Value) : Except Fault Bool :=
  match left, right with
  | .f64 l, .f64 r => match orderFloats l r with
    | some o => .ok (holds op o)
    | none => .ok (op = .ne)
  | .ptr l, .ptr r => .ok (holds op (orderNats l r))
  | .null, .null => .ok (holds op .eq)
  | .ptr _, .null | .null, .ptr _ => match op with
    | .eq => .ok false
    | .ne => .ok true
    | _ => .error .orderedNull
  | .func l, .func r => .ok (holds op (orderNats l.index.toNat r.index.toNat))
  | left, right => match left.integer?, right.integer? with
    | some l, some r => .ok (holds op (orderIntegers l r))
    | _, _ => .error (.incomparable left right)

end SiteFusion.Machine
