import SiteFusion.Json.Numeral

namespace SiteFusion

/-- What is wrong with a text. -/
inductive Defect
  | malformed
  | truncated
  | mismatched
deriving DecidableEq, Repr

/-- The kinds of values that are written without brackets. -/
inductive Token
  | null
  | boolean
  | number
  | string
deriving DecidableEq, Repr

/-- Where a text stops being JSON. -/
inductive Stop
  | malformed
  | ended
  | endedAfterComma
  | endedInside (t : Token)
deriving DecidableEq, Repr

def Stop.defect : Stop → Defect
  | .malformed => .malformed
  | .ended | .endedAfterComma | .endedInside _ => .truncated

def Stop.skippedDefect : Stop → Defect
  | .endedInside .number => .malformed
  | s => s.defect

/-- The characters between two quotes, escapes not resolved. `stop` says why there is no closing
quote. -/
structure Literal where
  raw : List Char
  stop : Option Stop
deriving DecidableEq, Repr

inductive Json
  | null
  | bool (b : Bool)
  | number (n : Numeral)
  | string (s : Literal)
  | array (items : List Json) (stop : Option Stop)
  | object (members : List (Literal × Json)) (stop : Option Stop)
  | broken (s : Stop)

namespace Json

def stop? : Json → Option Stop
  | .string s => s.stop
  | .array _ stop => stop
  | .object _ stop => stop
  | .broken s => some s
  | _ => none

end Json

def escapeChar (c : Char) : List Char :=
  if c = '"' then ['\\', '"']
  else if c = '\\' then ['\\', '\\']
  else if c.toNat = 8 then ['\\', 'b']
  else if c = '\t' then ['\\', 't']
  else if c = '\n' then ['\\', 'n']
  else if c.toNat = 12 then ['\\', 'f']
  else if c = '\r' then ['\\', 'r']
  else if c.toNat < 32 then
    ['\\', 'u', '0', '0', Nat.digitChar (c.toNat / 16), Nat.digitChar (c.toNat % 16)]
  else [c]

def Literal.ofString (s : String) : Literal := ⟨s.toList.flatMap escapeChar, none⟩

def hexDigit? (c : Char) : Option Nat :=
  if '0' ≤ c ∧ c ≤ '9' then some (c.toNat - '0'.toNat)
  else if 'a' ≤ c ∧ c ≤ 'f' then some (c.toNat - 'a'.toNat + 10)
  else if 'A' ≤ c ∧ c ≤ 'F' then some (c.toNat - 'A'.toNat + 10)
  else none

def hexWord? (a b c d : Char) : Option Nat := do
  let a ← hexDigit? a
  let b ← hexDigit? b
  let c ← hexDigit? c
  let d ← hexDigit? d
  return ((a * 16 + b) * 16 + c) * 16 + d

def shortEscape? (c : Char) : Option Char :=
  if c = '"' ∨ c = '\\' ∨ c = '/' then some c
  else if c = 'b' then some (Char.ofNat 8)
  else if c = 'f' then some (Char.ofNat 12)
  else if c = 'n' then some '\n'
  else if c = 'r' then some '\r'
  else if c = 't' then some '\t'
  else none

def Literal.cut (stop : Option Stop) : Defect := (stop.getD .malformed).defect

def Literal.resolve (stop : Option Stop) : List Char → Except Defect (List Char)
  | [] => match stop with
    | none => .ok []
    | some s => .error s.defect
  | '\\' :: 'u' :: a :: b :: c :: d :: rest =>
    match hexWord? a b c d with
    | none => .error .malformed
    | some n =>
      if 0xDC00 ≤ n ∧ n ≤ 0xDFFF then .error .malformed
      else if n < 0xD800 ∨ 0xDBFF < n then (Literal.resolve stop rest).map (Char.ofNat n :: ·)
      else match rest with
        | '\\' :: 'u' :: a :: b :: c :: d :: rest =>
          match hexWord? a b c d with
          | none => .error .malformed
          | some m =>
            if 0xDC00 ≤ m ∧ m ≤ 0xDFFF then
              (Literal.resolve stop rest).map
                (Char.ofNat ((n - 0xD800) * 1024 + (m - 0xDC00) + 0x10000) :: ·)
            else .error .malformed
        | [] => .error (Literal.cut stop)
        | ['\\'] => .error (Literal.cut stop)
        | ['\\', 'u'] => .error (Literal.cut stop)
        | '\\' :: 'u' :: _ => .error (Literal.cut stop)
        | _ => .error .malformed
  | ['\\'] => .error (Literal.cut stop)
  | '\\' :: 'u' :: _ => .error (Literal.cut stop)
  | '\\' :: c :: rest =>
    match shortEscape? c with
    | none => .error .malformed
    | some c => (Literal.resolve stop rest).map (c :: ·)
  | c :: rest => (Literal.resolve stop rest).map (c :: ·)

def Literal.text (s : Literal) : Except Defect String :=
  (Literal.resolve s.stop s.raw).map String.ofList

namespace Json

def ofString (s : String) : Json := .string (.ofString s)

def ofInt (i : Int) : Json := .number (.ofInt i)

def ofNat (n : Nat) : Json := .number (.ofInt n)

def ofFloat (x : Float) : Json := .number (.ofFloat x)

def ofList (items : List Json) : Json := .array items none

def ofMembers (members : List (String × Json)) : Json :=
  .object (members.map fun m => (.ofString m.1, m.2)) none

def ofOption {α : Type} (f : α → Json) : Option α → Json
  | none => .null
  | some a => f a

end Json

end SiteFusion
