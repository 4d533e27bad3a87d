import SiteFusion.Toml.Scalar

namespace SiteFusion.Toml

def isKeyChar (c : Char) : Bool := c.isAlphanum || c = '-' || c = '_'

def simpleKey (cs : List Char) : Option (String × List Char) :=
  match cs with
  | '"' :: _ | '\'' :: _ => (short cs).map fun (s, rest) => (String.ofList s, rest)
  | _ =>
    let name := cs.takeWhile isKeyChar
    if name.isEmpty then none else some (String.ofList name, cs.drop name.length)

def keyList : Nat → Reader (List String)
  | 0, _ => none
  | fuel + 1, cs => do
    let (k, cs) ← simpleKey (skipBlank cs)
    match skipBlank cs with
    | '.' :: rest => do
      let (ks, rest) ← keyList fuel rest
      return (k :: ks, rest)
    | rest => return ([k], rest)

/-- The number of keys that a dotted key must stay below, and of brackets that may not be open at
once. -/
def depthLimit : Nat := 80

def key (cs : List Char) : Option ((List String × String) × List Char) := do
  let (ks, rest) ← keyList (cs.length + 1) cs
  let last ← ks.getLast?
  if depthLimit ≤ ks.length then none else return ((ks.dropLast, last), rest)

def skipSpace : Nat → List Char → List Char
  | 0, cs => cs
  | fuel + 1, cs => match skipLines cs with
    | '#' :: rest => skipSpace fuel (skipComment ('#' :: rest))
    | rest => rest

/-- The items of an array after its bracket. The last one may have a comma after it. -/
def arrayRest (value : Reader Value) : Nat → Reader (List Value)
  | 0, _ => none
  | fuel + 1, cs =>
    match skipSpace cs.length cs with
    | ']' :: rest => some ([], rest)
    | cs => do
      let (v, cs) ← value cs
      match skipSpace cs.length cs with
      | ',' :: rest => do
        let (vs, rest) ← arrayRest value fuel rest
        return (v :: vs, rest)
      | ']' :: rest => return ([v], rest)
      | _ => none

def assignment (value : Reader Value) (cs : List Char) :
    Option ((List String × String) × Value × List Char) := do
  let (k, cs) ← key cs
  let cs ← char '=' cs
  let (v, cs) ← value (skipBlank cs)
  return (k, v, cs)

def bracesRest (value : Reader Value) : Nat → Entries → Reader Entries
  | 0, _, _ => none
  | fuel + 1, es, cs => do
    let ((path, k), v, cs) ← assignment value cs
    let es ← es.addDotted k v path
    match skipBlank cs with
    | ',' :: rest => bracesRest value fuel es rest
    | '}' :: rest => return (es, rest)
    | _ => none

def bracesEntries (value : Reader Value) (cs : List Char) : Option (Entries × List Char) :=
  match skipBlank cs with
  | '}' :: rest => some ([], rest)
  | cs => bracesRest value (cs.length + 1) [] cs

def value : Nat → Reader Value
  | depth, cs => match cs with
    | '"' :: _ | '\'' :: _ => (string cs).map fun (s, rest) => (.string (String.ofList s), rest)
    | '[' :: rest => match depth with
      | 0 => none
      | depth + 1 => (arrayRest (value depth) (rest.length + 1) rest).map
          fun (vs, rest) => (.array vs, rest)
    | '\x7b' :: rest => match depth with
      | 0 => none
      | depth + 1 => (bracesEntries (value depth) rest).map
          fun (es, rest) => (.table .braces es, rest)
    | 't' :: 'r' :: 'u' :: 'e' :: rest => some (.boolean true, rest)
    | 'f' :: 'a' :: 'l' :: 's' :: 'e' :: rest => some (.boolean false, rest)
    | 'i' :: _ | 'n' :: _ => special [] cs
    | _ => number cs

/-- The entries so far, and the header that new ones come under. -/
structure Document where
  root : Entries
  header : List String

def lineEnd (cs : List Char) : Option (List Char) :=
  match skipComment (skipBlank cs) with
  | [] => some []
  | cs => newline? cs

def header (d : Document) (cs : List Char) : Option (Document × List Char) :=
  match cs with
  | '[' :: '[' :: rest => do
    let ((path, k), rest) ← key rest
    let rest ← char ']' rest
    let rest ← char ']' rest
    let rest ← lineEnd rest
    let root ← d.root.within (Entries.openElement k) path
    return (⟨root, path ++ [k]⟩, rest)
  | '[' :: rest => do
    let ((path, k), rest) ← key rest
    let rest ← char ']' rest
    let rest ← lineEnd rest
    let root ← d.root.within (Entries.openTable k) path
    return (⟨root, path ++ [k]⟩, rest)
  | _ => none

def line (d : Document) (cs : List Char) : Option (Document × List Char) :=
  match cs with
  | '[' :: _ => header d cs
  | '#' :: _ | '\n' :: _ | '\r' :: _ => (lineEnd cs).map fun rest => (d, rest)
  | _ => do
    let ((path, k), v, cs) ← assignment (value (depthLimit - 1)) cs
    let rest ← lineEnd cs
    let root ← d.root.within (Entries.addDotted k v path) d.header
    return ({ d with root := root }, rest)

def lines : Nat → Document → List Char → Option Entries
  | 0, _, _ => none
  | fuel + 1, d, cs => match skipBlank cs with
    | [] => some d.root
    | cs => do
      let (d, rest) ← line d cs
      lines fuel d rest

def read (s : String) : Option Entries :=
  let cs := match s.toList with
    | '\ufeff' :: cs => cs
    | cs => cs
  lines (cs.length + 1) ⟨[], []⟩ cs

end SiteFusion.Toml
