import SiteFusion.Text.Blank

namespace SiteFusion

/-- A pass that looks at one function at a time. -/
inductive FunctionPass
  | simplifyCfg
  | deadCode
  | spill
deriving DecidableEq, Repr

/-- A pass that looks at the whole module. -/
inductive ModulePass
  | mergeConstants
  | simplifyGlobals
  | pruneGlobals
  | mergeFunctions
  | fuse
deriving DecidableEq, Repr

inductive Pass
  | onFunctions (p : FunctionPass)
  | onModule (p : ModulePass)
deriving DecidableEq, Repr

def FunctionPass.name : FunctionPass → String
  | .simplifyCfg => "simplifycfg"
  | .deadCode => "dce"
  | .spill => "reg2mem"

def ModulePass.name : ModulePass → String
  | .mergeConstants => "constmerge"
  | .simplifyGlobals => "globalopt"
  | .pruneGlobals => "globaldce"
  | .mergeFunctions => "mergefunc"
  | .fuse => "fuse"

def FunctionPass.all : List FunctionPass := [.simplifyCfg, .deadCode, .spill]

def ModulePass.all : List ModulePass :=
  [.mergeConstants, .simplifyGlobals, .pruneGlobals, .mergeFunctions, .fuse]

def FunctionPass.ofName? (s : String) : Option FunctionPass :=
  FunctionPass.all.find? fun p => p.name = s

def ModulePass.ofName? (s : String) : Option ModulePass :=
  ModulePass.all.find? fun p => p.name = s

def Pass.name : Pass → String
  | .onFunctions p => p.name
  | .onModule p => p.name

def Pass.ofName? (s : String) : Option Pass :=
  ((FunctionPass.ofName? s).map .onFunctions).or ((ModulePass.ofName? s).map .onModule)

inductive Step
  | pass (p : Pass)
  | functions (ps : List FunctionPass)
deriving DecidableEq, Repr

abbrev Pipeline := List Step

namespace Pipeline

/-- What is wrong with a text. -/
inductive Problem
  | unexpected (c : Char)
  | expected (c : Char) (found : Option Char)
  | noName
  | takesNoArguments (name : String)
  | needsArguments (name : String)
  | unknownPass (name : String)
  | cannotNest (name : String)
  | modulePass (name : String)
deriving DecidableEq, Repr

def Problem.message : Problem → String
  | .unexpected c => "unexpected '" ++ c.toString ++ "'"
  | .expected c none => "expected '" ++ c.toString ++ "', found end of input"
  | .expected c (some d) => "expected '" ++ c.toString ++ "', found '" ++ d.toString ++ "'"
  | .noName => "expected a pass name"
  | .takesNoArguments n => "pass '" ++ n ++ "' takes no arguments"
  | .needsArguments n => "expected '(' after '" ++ n ++ "'"
  | .unknownPass n => "unknown pass '" ++ n ++ "'"
  | .cannotNest n => "'" ++ n ++ "' cannot be nested inside function(...)"
  | .modulePass n => "module pass '" ++ n ++ "' cannot run inside function(...)"

/-- A problem and the offset where it is, in bytes of UTF-8. -/
structure Fault where
  problem : Problem
  offset : Nat
deriving DecidableEq, Repr

def Fault.message (e : Fault) : String :=
  "invalid pipeline at offset " ++ toString e.offset ++ ": " ++ e.problem.message

/-- A place in a text. -/
structure Cursor where
  rest : List Char
  offset : Nat
deriving DecidableEq, Repr

namespace Cursor

def skip (n : Nat) : List Char → Cursor
  | [] => ⟨[], n⟩
  | c :: cs => if Text.isBlank c then skip (n + c.utf8Size) cs else ⟨c :: cs, n⟩

def skipBlank (p : Cursor) : Cursor := skip p.offset p.rest

def eat (p : Cursor) (c : Char) : Bool × Cursor :=
  let p := p.skipBlank
  match p.rest with
  | d :: rest => if d = c then (true, ⟨rest, p.offset + c.utf8Size⟩) else (false, p)
  | [] => (false, p)

def expect (p : Cursor) (c : Char) : Except Fault Cursor :=
  match p.eat c with
  | (true, p) => .ok p
  | (false, p) => .error ⟨.expected c p.rest.head?, p.offset⟩

def isNameChar (c : Char) : Bool := c.isAlphanum || c = '_' || c = '-'

def name (p : Cursor) : Except Fault (String × Nat × Cursor) :=
  let p := p.skipBlank
  let cs := p.rest.takeWhile isNameChar
  if cs.isEmpty then .error ⟨.noName, p.offset⟩
  else .ok (String.ofList cs, p.offset, ⟨p.rest.dropWhile isNameChar, p.offset + cs.length⟩)

end Cursor

abbrev Reader (α : Type) := Cursor → Except Fault (List α × Cursor)

def group {α : Type} (list : Reader α) (p : Cursor) : Except Fault (List α × Cursor) := do
  let (found, p) ← list p
  let p ← p.expect ')'
  return (found, p)

def item {α : Type} (groups : String → Option (Reader α)) (refusal : String → Problem)
    (single : String → Nat → Nat → Except Fault α) (p : Cursor) :
    Except Fault (List α × Cursor) := do
  let (name, start, p) ← p.name
  match p.eat '(' with
  | (true, p) => match groups name with
    | some list => group list p
    | none => .error ⟨refusal name, start⟩
  | (false, p) => do
    let found ← single name start p.offset
    return ([found], p)

def items {α : Type} (item list : Reader α) (p : Cursor) : Except Fault (List α × Cursor) := do
  let (found, p) ← item p
  match p.eat ',' with
  | (true, p) => do
    let (more, p) ← list p
    return (found ++ more, p)
  | (false, p) => return (found, p)

def functionPass (name : String) (start : Nat) : Except Fault FunctionPass :=
  match FunctionPass.ofName? name with
  | some p => .ok p
  | none =>
    if (ModulePass.ofName? name).isSome ∨ name = "module" then .error ⟨.modulePass name, start⟩
    else .error ⟨.unknownPass name, start⟩

def functionItem (list : Reader FunctionPass) : Reader FunctionPass :=
  item (fun name => if name = "function" then some list else none) .cannotNest
    fun name start _ => functionPass name start

/-- A list of items inside `function(...)`. Every item takes up a character at least. -/
def functionList : Nat → Cursor → Except Fault (List FunctionPass × Cursor)
  | 0, p => .error ⟨.noName, p.offset⟩
  | n + 1, p => items (functionItem (functionList n)) (functionList n) p

def modulePass (name : String) (start here : Nat) : Except Fault Pass :=
  match Pass.ofName? name with
  | some p => .ok p
  | none =>
    if name = "module" ∨ name = "function" then .error ⟨.needsArguments name, here⟩
    else .error ⟨.unknownPass name, start⟩

def oneStep (functions : Reader FunctionPass) (p : Cursor) : Except Fault (List Step × Cursor) := do
  let (passes, p) ← functions p
  return ([.functions passes], p)

def moduleItem (list : Reader Step) (functions : Reader FunctionPass) : Reader Step :=
  item (fun name =>
    if name = "module" then some list
    else if name = "function" then some (oneStep functions)
    else none) .takesNoArguments fun name start here => (modulePass name start here).map .pass

def moduleList : Nat → Cursor → Except Fault (List Step × Cursor)
  | 0, p => .error ⟨.noName, p.offset⟩
  | n + 1, p => items (moduleItem (moduleList n) (functionList n)) (moduleList n) p

def parse (s : String) : Except Fault Pipeline :=
  let p := Cursor.skipBlank ⟨s.toList, 0⟩
  if p.rest.isEmpty then .ok []
  else do
    let (steps, p) ← moduleList (s.length + 1) p
    let p := p.skipBlank
    match p.rest with
    | [] => return steps
    | c :: _ => .error ⟨.unexpected c, p.offset⟩

end Pipeline

end SiteFusion
