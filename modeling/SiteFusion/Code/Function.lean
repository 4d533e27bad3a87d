import SiteFusion.Code.Graph

namespace SiteFusion

inductive Linkage
  | private_
  | internal
  | public_
  | external
deriving DecidableEq, Repr

/-- Whether a symbol that nothing in its module refers to may go. -/
def Linkage.isLocal : Linkage → Bool
  | .private_ | .internal => true
  | .public_ | .external => false

def Linkage.name : Linkage → String
  | .private_ => "Private"
  | .internal => "Internal"
  | .public_ => "Public"
  | .external => "External"

inductive InlineHint
  | never
  | auto
  | hint
  | always
deriving DecidableEq, Repr

inductive FunctionKind
  | userDefined
  | externC
  | intrinsic
deriving DecidableEq, Repr

structure Attributes where
  linkage : Linkage
  inline : InlineHint
  optimizeNone : Bool
  gc : Option String
deriving DecidableEq, Repr

def Attributes.default : Attributes := ⟨.internal, .auto, false, none⟩

structure Param where
  name : String
  ty : Ty
  reg : Reg
deriving DecidableEq, Repr

structure Signature where
  params : List Param
  result : Ty
  varargs : Bool
deriving DecidableEq, Repr

/-- The types of registers, in ascending order of the registers. -/
structure RegTypes where
  entries : List (Reg × Ty)
  ascending : entries.Pairwise fun a b => a.1.index < b.1.index
deriving DecidableEq

namespace RegTypes

def empty : RegTypes := ⟨[], .nil⟩

def get? (t : RegTypes) (r : Reg) : Option Ty := t.entries.lookup r

def insertEntry (r : Reg) (ty : Ty) : List (Reg × Ty) → List (Reg × Ty)
  | [] => [(r, ty)]
  | e :: l =>
    if e.1.index < r.index then e :: insertEntry r ty l
    else if e.1 = r then (r, ty) :: l
    else (r, ty) :: e :: l

theorem mem_insertEntry {r : Reg} {ty : Ty} {l : List (Reg × Ty)} {e : Reg × Ty}
    (h : e ∈ insertEntry r ty l) : e = (r, ty) ∨ e ∈ l := by
  induction l with
  | nil => simpa [insertEntry] using h
  | cons a l ih =>
    rw [insertEntry] at h
    split at h
    · rcases List.mem_cons.mp h with h | h
      · exact .inr (by simp [h])
      · rcases ih h with h | h
        · exact .inl h
        · exact .inr (by simp [h])
    · split at h
      · rcases List.mem_cons.mp h with h | h
        · exact .inl h
        · exact .inr (by simp [h])
      · rcases List.mem_cons.mp h with h | h
        · exact .inl h
        · exact .inr h

theorem pairwise_insertEntry (r : Reg) (ty : Ty) (l : List (Reg × Ty))
    (h : l.Pairwise fun a b => a.1.index < b.1.index) :
    (insertEntry r ty l).Pairwise fun a b => a.1.index < b.1.index := by
  induction l with
  | nil => simp [insertEntry]
  | cons a l ih =>
    obtain ⟨ha, hl⟩ := List.pairwise_cons.mp h
    rw [insertEntry]
    split
    · next hlt =>
      refine List.pairwise_cons.mpr ⟨fun e he => ?_, ih hl⟩
      rcases mem_insertEntry he with rfl | he
      · exact hlt
      · exact ha e he
    · next hge =>
      split
      · next heq =>
        refine List.pairwise_cons.mpr ⟨fun e he => ?_, hl⟩
        have := ha e he
        rwa [heq] at this
      · next hne =>
        have hlt : r.index < a.1.index := by
          have hle := UInt32.not_lt.mp hge
          exact UInt32.lt_of_le_of_ne hle fun hi => hne (by cases r; cases a with
            | mk k t => cases k; simp_all)
        refine List.pairwise_cons.mpr ⟨fun e he => ?_, h⟩
        rcases List.mem_cons.mp he with rfl | he
        · exact hlt
        · exact UInt32.lt_trans hlt (ha e he)

def insert (t : RegTypes) (r : Reg) (ty : Ty) : RegTypes :=
  ⟨insertEntry r ty t.entries, pairwise_insertEntry r ty t.entries t.ascending⟩

def ofList (l : List (Reg × Ty)) : RegTypes := l.foldl (fun t e => t.insert e.1 e.2) empty

end RegTypes

structure Function where
  id : FuncId
  name : String
  signature : Signature
  graph : Graph
  regTypes : RegTypes
  attributes : Attributes
  kind : FunctionKind
  trap : Option BlockId
  nextReg : UInt32
deriving DecidableEq

namespace Function

/-- A function with an empty body and a register for each parameter. -/
def create (id : FuncId) (name : String) (params : List (String × Ty)) (result : Ty) : Function :=
  let params := params.mapIdx fun i p => Param.mk p.1 p.2 ⟨i.toUInt32⟩
  { id, name
    signature := ⟨params, result, false⟩
    graph := .start
    regTypes := .ofList (params.map fun p => (p.reg, p.ty))
    attributes := .default
    kind := .userDefined
    trap := none
    nextReg := params.length.toUInt32 }

def declaration (id : FuncId) (name : String) (params : List (String × Ty)) (result : Ty) :
    Function :=
  let f := create id name params result
  { f with
    kind := .externC
    attributes := { f.attributes with linkage := .external }
    graph := { f.graph with blocks := .empty } }

def freshReg (f : Function) : Edit (Function × Reg) := do
  let next ← Counter.register.next f.nextReg
  return ({ f with nextReg := next }, ⟨f.nextReg⟩)

def freshTyped (f : Function) (ty : Ty) : Edit (Function × Reg) := do
  let (f, r) ← f.freshReg
  return ({ f with regTypes := f.regTypes.insert r ty }, r)

def op {κ : Type} (f : Function) (kind : κ) (tags : Tags) : Edit (Function × Operation κ) := do
  let (g, o) ← f.graph.op kind tags
  return ({ f with graph := g }, o)

def createBlock (f : Function) : Edit (Function × BlockId) := do
  let (g, b) ← f.graph.createBlock
  return ({ f with graph := g }, b)

def modifyBlock (f : Function) (b : BlockId) (h : Block → Block) : Function :=
  { f with graph := f.graph.modifyBlock b h }

def splitBlock (f : Function) (b : BlockId) (index : Nat) : Edit (Function × Option BlockId) := do
  let (g, tail) ← f.graph.splitBlock b index
  return ({ f with graph := g }, tail)

def isDeclaration (f : Function) : Bool := f.kind = .externC || f.graph.blocks.isEmpty

def isIntrinsic (f : Function) : Bool := f.kind = .intrinsic

def returnsValue (f : Function) : Bool := !f.signature.result.isVoid

def isParam (f : Function) (r : Reg) : Bool := f.signature.params.any fun p => p.reg = r

/-- Whether the function has a body that may be changed. -/
def isOptimizable (f : Function) : Bool := !f.isDeclaration && !f.attributes.optimizeNone

/-- The shared block that must not be run. It is made when it is first asked for, and again when
the old one has gone or was put to another use. -/
def trapBlock (f : Function) : Edit (Function × BlockId) :=
  let intact := f.trap.filter fun b => ((f.graph.block? b).map Block.isTrap).getD false
  match intact with
  | some b => .ok (f, b)
  | none => do
    let (f, b) ← f.createBlock
    let f := f.modifyBlock b fun t => { t with label := some "unreachable" }
    return ({ f with trap := some b }, b)

def removeBlock (f : Function) (b : BlockId) : Function :=
  { f with
    trap := if f.trap = some b then none else f.trap
    graph := f.graph.removeBlock b }

def deadBlocks (f : Function) : List BlockId :=
  let live := f.graph.reachable
  f.graph.blocks.keys.filter fun b => !live.contains b

def removeDeadBlocks (f : Function) : Function := f.deadBlocks.foldl removeBlock f

def instructions (f : Function) : List (Operation Instruction) :=
  f.graph.blockList.flatMap Block.instructions

def mapInstructions (f : Function) (h : Instruction → Instruction) : Function :=
  { f with graph := f.graph.mapBlocks fun b => b.mapInstructions h }

def instructionCount (f : Function) : Nat := f.instructions.length

/-- The functions that are called directly or whose address is taken, in program order. -/
def functions (f : Function) : List FuncId := f.instructions.filterMap fun o => o.kind.function?

def uses (f : Function) : List Reg := f.graph.blockList.flatMap Block.uses

/-- The cells that the entry block allocates. -/
def entryAllocas (f : Function) : List Reg :=
  match f.graph.block? f.graph.entry with
  | none => []
  | some b => b.instructions.filterMap fun o => match o.kind with
    | .alloca d _ => some d
    | _ => none

def text (f : Function) : String :=
  let params := f.signature.params.map fun p => p.reg.text ++ ": " ++ p.ty.text
  let heading :=
    "@" ++ f.name ++ "(" ++ ", ".intercalate params ++ ") -> " ++ f.signature.result.text
  if f.isDeclaration then "declare " ++ heading ++ "\n"
  else
    "fn " ++ heading ++ " \x7b\n" ++ String.join (f.graph.blockList.map Block.text) ++ "\x7d\n"

end Function

end SiteFusion
