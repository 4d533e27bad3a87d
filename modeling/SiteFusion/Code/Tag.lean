import SiteFusion.Text.Quoted

namespace SiteFusion

inductive TagValue
  | str (s : String)
  | word (w : UInt64)
deriving DecidableEq, Repr

structure Tag where
  name : String
  value : TagValue
deriving DecidableEq, Repr

/-- The notes on one operation. A text may give a name twice; the first counts. -/
structure Tags where
  list : List Tag
deriving DecidableEq, Repr

namespace TagValue

def str? : TagValue → Option String
  | .str s => some s
  | .word _ => none

def word? : TagValue → Option UInt64
  | .str _ => none
  | .word w => some w

def bytes (w : UInt64) : List UInt8 :=
  (List.range 8).map fun i => (w.toNat / Nat.pow 256 i % 256).toUInt8

def ofBytes (bs : List UInt8) : UInt64 :=
  (bs.foldr (fun (b : UInt8) n => n * 256 + b.toNat) 0).toUInt64

def text : TagValue → String
  | .str s => Text.quote s
  | .word w =>
    let ds := Nat.toDigits 16 w.toNat
    "0x" ++ String.ofList (List.replicate (16 - ds.length) '0' ++ ds)

end TagValue

namespace Tags

def empty : Tags := ⟨[]⟩

instance : Inhabited Tags := ⟨empty⟩

def isEmpty (ts : Tags) : Bool := ts.list.isEmpty

def size (ts : Tags) : Nat := ts.list.length

def get? (ts : Tags) (name : String) : Option TagValue :=
  (ts.list.find? fun t => t.name = name).map Tag.value

def attachTo (name : String) (value : TagValue) : List Tag → List Tag
  | [] => [⟨name, value⟩]
  | t :: ts => if t.name = name then ⟨name, value⟩ :: ts else t :: attachTo name value ts

/-- Note a value under a name, in the place of the first note of that name. -/
def attach (ts : Tags) (name : String) (value : TagValue) : Tags :=
  ⟨attachTo name value ts.list⟩

def getStr? (ts : Tags) (name : String) : Option String := (ts.get? name).bind TagValue.str?

def getWord? (ts : Tags) (name : String) : Option UInt64 := (ts.get? name).bind TagValue.word?

def has (ts : Tags) (name : String) : Bool := (ts.get? name).isSome

/-- Whether exactly this value is noted under the name. -/
def notes (ts : Tags) (name : String) (value : TagValue) : Bool := ts.get? name = some value

def eraseFrom (name : String) : List Tag → List Tag
  | [] => []
  | t :: ts => if t.name = name then ts else t :: eraseFrom name ts

def erase (ts : Tags) (name : String) : Tags := ⟨eraseFrom name ts.list⟩

def copyFrom (ts other : Tags) : Tags :=
  other.list.foldl (fun ts t => ts.attach t.name t.value) ts

/-- The notes after an operation in a listing; nothing when there are none. -/
def text (ts : Tags) : String :=
  if ts.isEmpty then ""
  else
    let parts := ts.list.map fun t => t.name ++ " = " ++ t.value.text
    "  !\x7b" ++ ", ".intercalate parts ++ "\x7d"

end Tags

end SiteFusion
