namespace SiteFusion.Text

/-- The number `digits * 10 ^ exponent`. -/
structure Decimal where
  digits : Nat
  exponent : Int
deriving DecidableEq, Repr

/-- Which of two neighbouring decimals is taken when a double lies halfway between them. -/
inductive Tie
  | larger
  | even
deriving DecidableEq, Repr

/-- A positive finite double as `mantissa * 2 ^ exponent`, with the step to the double below it
halved when `narrow` holds. -/
structure Binary where
  mantissa : Nat
  exponent : Int
  narrow : Bool
deriving DecidableEq, Repr

def Binary.ofBits (bits : UInt64) : Binary :=
  let fraction : Nat := bits.toNat % Nat.pow 2 52
  let biased : Nat := bits.toNat / Nat.pow 2 52 % Nat.pow 2 11
  if biased = 0 then ⟨fraction, -1074, false⟩
  else ⟨Nat.pow 2 52 + fraction, (biased : Int) - 1075, fraction = 0 && biased ≠ 1⟩

def scaled (n : Nat) (two ten : Int) : Nat × Nat :=
  (n * Nat.pow 2 two.toNat * Nat.pow 10 ten.toNat,
    Nat.pow 2 (-two).toNat * Nat.pow 10 (-ten).toNat)

def Binary.magnitudeFrom (b : Binary) (lo : Int) : Nat → Int
  | 0 => lo
  | fuel + 1 =>
    let q := scaled b.mantissa b.exponent (-lo)
    if q.1 < q.2 then lo else b.magnitudeFrom (lo + 1) fuel

def Binary.magnitude (b : Binary) : Int :=
  let width : Int := b.mantissa.log2 + b.exponent
  -- 30103 / 100000 is just above the decimal logarithm of two
  b.magnitudeFrom (width * 30103 / 100000 - 2) 8

def Binary.accepts (b : Binary) (c : Nat) (place : Int) : Bool :=
  let low := if b.narrow then 4 * b.mantissa - 1 else 4 * b.mantissa - 2
  let high := 4 * b.mantissa + 2
  let p := scaled 1 (b.exponent - 2) (-place)
  if b.mantissa % 2 = 0 then low * p.1 ≤ c * p.2 && c * p.2 ≤ high * p.1
  else low * p.1 < c * p.2 && c * p.2 < high * p.1

def Tie.nearer (tie : Tie) (below rest unit : Nat) : Nat :=
  if 2 * rest < unit then below
  else if 2 * rest = unit ∧ tie = .even ∧ below % 2 = 0 then below
  else below + 1

def Binary.roundAt (b : Binary) (tie : Tie) (place : Int) : Option Decimal :=
  let q := scaled b.mantissa b.exponent (-place)
  let below := q.1 / q.2
  match b.accepts below place, b.accepts (below + 1) place with
  | true, true => some ⟨tie.nearer below (q.1 % q.2) q.2, place⟩
  | true, false => some ⟨below, place⟩
  | false, true => some ⟨below + 1, place⟩
  | false, false => none

def Binary.shortestFrom (b : Binary) (tie : Tie) (place : Int) : Nat → Decimal
  | 0 => ⟨0, 0⟩
  | fuel + 1 => (b.roundAt tie place).getD (b.shortestFrom tie (place - 1) fuel)

def Decimal.trim (d : Decimal) : Nat → Decimal
  | 0 => d
  | fuel + 1 =>
    if d.digits ≠ 0 ∧ d.digits % 10 = 0 then
      Decimal.trim ⟨d.digits / 10, d.exponent + 1⟩ fuel
    else d

def Binary.shortest (b : Binary) (tie : Tie) : Decimal :=
  (b.shortestFrom tie (b.magnitude - 1) 18).trim 18

def isNegative (x : Float) : Bool := x.toBits.toNat / Nat.pow 2 63 = 1

def shortest (tie : Tie) (x : Float) : Decimal :=
  let b := Binary.ofBits x.toBits
  if b.mantissa = 0 then ⟨0, 0⟩ else b.shortest tie

def digitsOf (n : Nat) : List Char := Nat.toDigits 10 n

def zeros (n : Nat) : List Char := List.replicate n '0'

def Decimal.positional (d : Decimal) : List Char :=
  let ds := digitsOf d.digits
  let point : Int := ds.length + d.exponent
  if 0 ≤ d.exponent then ds ++ zeros d.exponent.toNat
  else if 0 < point then ds.take point.toNat ++ '.' :: ds.drop point.toNat
  else '0' :: '.' :: zeros (-point).toNat ++ ds

def float (x : Float) : String :=
  if x.isNaN then "NaN"
  else if x.isInf then (if isNegative x then "-inf" else "inf")
  else (if isNegative x then "-" else "") ++ String.ofList (shortest .larger x).positional

end SiteFusion.Text
