import SiteFusion.Text.Decimal

namespace SiteFusion

/-- The exponent of a number as it is written. -/
structure Exponent where
  negative : Bool
  digits : List Nat
deriving DecidableEq, Repr

namespace Exponent

def toInt (e : Exponent) : Int :=
  let n : Nat := e.digits.foldl (fun n d => n * 10 + d) 0
  if e.negative then -n else n

end Exponent

/-- A number as it is written. `fraction` holds the digits after the point, none when there is no
point. -/
structure Numeral where
  negative : Bool
  whole : Nat
  fraction : List Nat
  exponent : Option Exponent
deriving DecidableEq, Repr

namespace Numeral

def ofInt (i : Int) : Numeral := ⟨decide (i < 0), i.natAbs, [], none⟩

def toInt? (n : Numeral) : Option Int :=
  if n.fraction ≠ [] ∨ n.exponent.isSome then none
  else if n.negative then
    (if 0 < n.whole ∧ n.whole ≤ 9223372036854775808 then some (-(n.whole : Int)) else none)
  else if n.whole < 18446744073709551616 then some n.whole else none

def wordLimit : Nat := 18446744073709551616

def takeWhole (sig : Nat) (exp : Int) : List Nat → Nat × Int
  | [] => (sig, exp)
  | d :: ds =>
    if sig * 10 + d < wordLimit then takeWhole (sig * 10 + d) exp ds
    else (sig, exp + (d :: ds).length)

def takeFraction (sig : Nat) (exp : Int) : List Nat → Nat × Int
  | [] => (sig, exp)
  | d :: ds =>
    if sig * 10 + d < wordLimit then takeFraction (sig * 10 + d) (exp - 1) ds else (sig, exp)

def tenTo (n : Nat) : Float := Float.ofScientific 1 false n

def shrink (x : Float) (n : Nat) : Nat → Float
  | 0 => x
  | fuel + 1 =>
    if n ≤ 308 then x / tenTo n
    else if x == 0.0 then x
    else shrink (x / tenTo 308) (n - 308) fuel

def scale? (sig : Nat) (exp : Int) : Option Float :=
  let x := sig.toUInt64.toFloat
  if 0 ≤ exp then
    if exp ≤ 308 then
      let y := x * tenTo exp.toNat
      if y.isInf then none else some y
    else if sig = 0 then some x else none
  else some (shrink x (-exp).toNat 4)

def decimalDigits (n : Nat) : List Nat := (Text.digitsOf n).map fun c => c.toNat - '0'.toNat

def toFloat? (n : Numeral) : Option Float :=
  let w := takeWhole 0 0 (decimalDigits n.whole)
  let f := takeFraction w.1 w.2 n.fraction
  let e := (n.exponent.map Exponent.toInt).getD 0
  (scale? f.1 (f.2 + e)).map fun x => if n.negative then -x else x

/-- The token of a finite double. The decimal exponents from -5 to 15 are written in full, with at
least one digit after the point; other numbers have one digit before the point. Of two equally
near decimals the one with an even last digit is written. -/
def ofFloat (x : Float) : Numeral :=
  let d := Text.shortest .even x
  let ds := decimalDigits d.digits
  let point : Int := ds.length + d.exponent
  let negative := Text.isNegative x
  if point - 1 < -5 ∨ 15 < point - 1 then
    ⟨negative, ds.headD 0, ds.tail,
      some ⟨decide (point - 1 < 0), decimalDigits (point - 1).natAbs⟩⟩
  else if 0 ≤ d.exponent then ⟨negative, d.digits * Nat.pow 10 d.exponent.toNat, [0], none⟩
  else
    let whole := ds.take point.toNat
    let fraction := List.replicate (-point).toNat 0 ++ ds.drop point.toNat
    ⟨negative, whole.foldl (fun n c => n * 10 + c) 0, fraction, none⟩

def digitChars (ds : List Nat) : List Char := ds.map Nat.digitChar

def chars (n : Numeral) : List Char :=
  (if n.negative then ['-'] else []) ++ Text.digitsOf n.whole
    ++ (if n.fraction = [] then [] else '.' :: digitChars n.fraction)
    ++ match n.exponent with
      | none => []
      | some e => 'e' :: (if e.negative then '-' else '+') :: digitChars e.digits

end Numeral

end SiteFusion
