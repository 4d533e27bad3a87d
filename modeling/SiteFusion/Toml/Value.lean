namespace SiteFusion.Toml

/-- How a table came about. -/
inductive Origin
  | header
  | path
  | dotted
  | braces
deriving DecidableEq, Repr

/-- A value. Floating-point numbers and times are kept as they are written. -/
inductive Value
  | string (s : String)
  | integer (i : Int)
  | float (text : String)
  | boolean (b : Bool)
  | time (text : String)
  | array (items : List Value)
  | table (origin : Origin) (entries : List (String × Value))
  | tables (elements : List (List (String × Value)))

abbrev Entries := List (String × Value)

namespace Entries

def set (k : String) (v : Value) (es : Entries) : Entries :=
  es.map fun e => if e.1 = k then (k, v) else e

def add (k : String) (v : Value) (es : Entries) : Option Entries :=
  if (es.lookup k).isSome then none else some (es ++ [(k, v)])

def onLast (f : Entries → Option Entries) (ts : List Entries) : Option (List Entries) := do
  let t ← ts.getLast?
  let t ← f t
  return ts.dropLast ++ [t]

def within (f : Entries → Option Entries) : List String → Entries → Option Entries
  | [], es => f es
  | k :: ks, es => match es.lookup k with
    | none => do
      let t ← within f ks []
      return es ++ [(k, .table .path t)]
    | some (.table .braces _) => none
    | some (.table o t) => do
      let t ← within f ks t
      return set k (.table o t) es
    | some (.tables ts) => do
      let ts ← onLast (within f ks) ts
      return set k (.tables ts) es
    | some _ => none

def openTable (k : String) (es : Entries) : Option Entries :=
  match es.lookup k with
  | none => some (es ++ [(k, .table .header [])])
  | some (.table .path t) => some (set k (.table .header t) es)
  | some _ => none

def openElement (k : String) (es : Entries) : Option Entries :=
  match es.lookup k with
  | none => some (es ++ [(k, .tables [[]])])
  | some (.tables ts) => some (set k (.tables (ts ++ [[]])) es)
  | some _ => none

def addDotted (k : String) (v : Value) : List String → Entries → Option Entries
  | [], es => es.add k v
  | p :: ps, es => match es.lookup p with
    | none => do
      let t ← addDotted k v ps []
      return es ++ [(p, .table .dotted t)]
    | some (.table .dotted t) => do
      let t ← addDotted k v ps t
      return set p (.table .dotted t) es
    | some (.table .path t) =>
      if ps.isEmpty then none
      else do
        let t ← addDotted k v ps t
        return set p (.table .path t) es
    | some (.tables ts) =>
      if ps.isEmpty then none
      else do
        let ts ← onLast (addDotted k v ps) ts
        return set p (.tables ts) es
    | some _ => none

end Entries

end SiteFusion.Toml
