import SiteFusion.Code.Function

namespace SiteFusion

structure Global where
  id : GlobalId
  name : String
  ty : Ty
  initializer : Option Const
  mutable : Bool
  linkage : Linkage
deriving DecidableEq, Repr

structure Module where
  name : String
  functions : Table FuncId Function
  globals : Table GlobalId Global
  nextFunction : UInt32
  nextGlobal : UInt32
deriving DecidableEq

def Global.text (g : Global) : String :=
  let kind := if g.mutable then "global" else "constant"
  let value := match g.initializer with
    | none => ""
    | some c => " = " ++ c.text
  kind ++ " @" ++ g.name ++ ": " ++ g.ty.text ++ value ++ " ; " ++ g.linkage.name

namespace Module

def create (name : String) : Module := ⟨name, .empty, .empty, 0, 0⟩

def function? (m : Module) (f : FuncId) : Option Function := m.functions.get? f

def functionList (m : Module) : List Function := m.functions.values

def modifyFunction (m : Module) (f : FuncId) (h : Function → Function) : Module :=
  { m with functions := m.functions.modify f h }

/-- Put a function in the place of the one under a key. -/
def setFunction (m : Module) (key : FuncId) (f : Function) : Module :=
  m.modifyFunction key fun _ => f

def freshFunction (m : Module) : Edit (Module × FuncId) := do
  let next ← Counter.function.next m.nextFunction
  return ({ m with nextFunction := next }, ⟨m.nextFunction⟩)

def addFunction (m : Module) (f : Function) : Edit Module := do
  let next ← if f.id.index < m.nextFunction then pure m.nextFunction
    else Counter.function.next f.id.index
  return { m with nextFunction := next, functions := m.functions.insert f.id f }

def addGlobal (m : Module) (name : String) (ty : Ty) (initializer : Option Const)
    (mutable : Bool) (linkage : Linkage) : Edit (Module × GlobalId) := do
  let id : GlobalId := ⟨m.nextGlobal⟩
  let next ← Counter.global.next m.nextGlobal
  let g : Global := ⟨id, name, ty, initializer, mutable, linkage⟩
  return ({ m with nextGlobal := next, globals := m.globals.insert id g }, id)

/-- The number of the first function of a name. -/
def lookup (m : Module) (name : String) : Option FuncId :=
  (m.functionList.find? fun f => f.name = name).map Function.id

def removeFunction (m : Module) (f : FuncId) : Module :=
  { m with functions := m.functions.erase f }

def instructions (m : Module) : List (Operation Instruction) :=
  m.functionList.flatMap Function.instructions

def mapInstructions (m : Module) (h : Instruction → Instruction) : Module :=
  { m with functions := m.functions.map fun f => f.mapInstructions h }

/-- How often other functions call a function or take its address. -/
def functionUseCount (m : Module) (f : FuncId) : Nat :=
  (((m.functionList.filter fun h => h.id ≠ f).flatMap Function.functions).filter
    fun h => h = f).length

/-- How often a global variable is loaded or stored. -/
def globalUseCount (m : Module) (g : GlobalId) : Nat :=
  (m.instructions.filter fun o => o.kind.global? = some g).length

def isStored (m : Module) (g : GlobalId) : Bool :=
  m.instructions.any fun o => match o.kind with
    | .storeGlobal g' _ => g' = g
    | _ => false

def isLoaded (m : Module) (g : GlobalId) : Bool :=
  m.instructions.any fun o => match o.kind with
    | .loadGlobal _ g' _ => g' = g
    | _ => false

def functionText? (m : Module) (name : String) : Option String :=
  (m.functionList.find? fun f => f.name = name).map Function.text

def text (m : Module) : String :=
  let globals := m.globals.values.map fun g => g.text ++ "\n"
  let gap := if m.globals.isEmpty then "" else "\n"
  let functions := m.functionList.map fun f => f.text ++ "\n"
  "; Module: " ++ m.name ++ "\n; Functions: " ++ toString m.functions.size ++ "\n\n" ++
    String.join globals ++ gap ++ String.join functions

end Module

end SiteFusion
