import SiteFusion.Code.Terminator

namespace SiteFusion

structure Block where
  id : BlockId
  label : Option String
  phis : List (Operation Phi)
  instructions : List (Operation Instruction)
  terminator : Operation Terminator
deriving DecidableEq, Repr

/-- A place of an operation in a block. -/
inductive Position
  | phi (index : Nat)
  | inst (index : Nat)
  | terminator
deriving DecidableEq, Repr

/-- What all operations have, whatever their kind. -/
structure Listed where
  position : Position
  op : OpId
  tags : Tags
deriving DecidableEq, Repr

namespace Operation

variable {κ : Type}

def plain (id : OpId) (kind : κ) : Operation κ := ⟨id, kind, .empty⟩

def map {μ : Type} (o : Operation κ) (f : κ → μ) : Operation μ := ⟨o.id, f o.kind, o.tags⟩

end Operation

namespace Block

def fresh (id : BlockId) (terminator : OpId) : Block :=
  ⟨id, none, [], [], .plain terminator .unreachable⟩

def successors (b : Block) : List BlockId := b.terminator.kind.successors

def uniqueSuccessors (b : Block) : List BlockId := b.successors.eraseDups

def listed (b : Block) : List Listed :=
  b.phis.mapIdx (fun i p => ⟨.phi i, p.id, p.tags⟩) ++
    b.instructions.mapIdx (fun i o => ⟨.inst i, o.id, o.tags⟩) ++
    [⟨.terminator, b.terminator.id, b.terminator.tags⟩]

def opIds (b : Block) : List OpId := b.listed.map Listed.op

def positionOf (b : Block) (op : OpId) : Option Position :=
  (b.listed.find? fun l => l.op = op).map Listed.position

def tagsAt (b : Block) : Position → Option Tags
  | .phi i => b.phis[i]?.map Operation.tags
  | .inst i => b.instructions[i]?.map Operation.tags
  | .terminator => some b.terminator.tags

/-- The number of allocations that the block starts with. -/
def allocaCount (b : Block) : Nat :=
  (b.instructions.takeWhile fun o => o.kind.isAlloca).length

def uses (b : Block) : List Reg :=
  b.phis.flatMap (fun p => p.kind.uses) ++ b.instructions.flatMap (fun o => o.kind.uses) ++
    b.terminator.kind.uses

def reads (b : Block) (r : Reg) : Bool := b.uses.contains r

def defs (b : Block) : List Reg :=
  b.phis.map (fun p => p.kind.dest) ++ b.instructions.filterMap fun o => o.kind.dest?

/-- Whether there is nothing in the block, and it must not be run. -/
def isTrap (b : Block) : Bool :=
  b.phis.isEmpty && b.instructions.isEmpty && b.terminator.kind = .unreachable

def mapPhis (b : Block) (f : Phi → Phi) : Block :=
  { b with phis := b.phis.map fun p => p.map f }

def mapInstructions (b : Block) (f : Instruction → Instruction) : Block :=
  { b with instructions := b.instructions.map fun o => o.map f }

def mapTerminator (b : Block) (f : Terminator → Terminator) : Block :=
  { b with terminator := b.terminator.map f }

def push (b : Block) (o : Operation Instruction) : Block :=
  { b with instructions := b.instructions ++ [o] }

def pushPhi (b : Block) (p : Operation Phi) : Block := { b with phis := b.phis ++ [p] }

def insertAt (b : Block) (index : Nat) (o : Operation Instruction) : Block :=
  { b with instructions := b.instructions.take index ++ o :: b.instructions.drop index }

def modifyTags (b : Block) (f : Tags → Tags) : Position → Block
  | .phi i => { b with phis := b.phis.modify i fun p => { p with tags := f p.tags } }
  | .inst i =>
    { b with instructions := b.instructions.modify i fun o => { o with tags := f o.tags } }
  | .terminator => { b with terminator := { b.terminator with tags := f b.terminator.tags } }

def mapTags (b : Block) (f : OpId → Tags → Tags) : Block :=
  { b with
    phis := b.phis.map fun p => { p with tags := f p.id p.tags }
    instructions := b.instructions.map fun o => { o with tags := f o.id o.tags }
    terminator := { b.terminator with tags := f b.terminator.id b.terminator.tags } }

def text (b : Block) : String :=
  let heading := match b.label with
    | none => "  " ++ b.id.text ++ ":\n"
    | some l => "  " ++ b.id.text ++ ": ; " ++ l ++ "\n"
  let line (t : String) (tags : Tags) : String := "    " ++ t ++ tags.text ++ "\n"
  heading ++ String.join (b.phis.map fun p => line p.kind.text p.tags) ++
    String.join (b.instructions.map fun o => line o.kind.text o.tags) ++
    line b.terminator.kind.text b.terminator.tags

end Block

end SiteFusion
