import SiteFusion.Transform.Spill

namespace SiteFusion

namespace SiteNote

/-- The callee, on the call, its switch, and the phis of the case number and the arguments. -/
def function : String := "fuse.function"

def start : String := "fuse.function.start"

def finish : String := "fuse.function.end"

def argument : String := "fuse.function.argidx"

def result : String := "fuse.function.ret"

def caseId : String := "fuse.function.blockid"

def site : String := "fuse.function.site"

end SiteNote

/-- An operation found by its notes. -/
structure Found where
  block : BlockId
  position : Position
  op : OpId
deriving DecidableEq, Repr

def Block.findNoted (b : Block) (test : Tags → Bool) : List Found :=
  (b.listed.filter fun l => !l.tags.isEmpty && test l.tags).map fun l => ⟨b.id, l.position, l.op⟩

def Function.findNoted (f : Function) (test : Tags → Bool) : List Found :=
  f.graph.blockList.flatMap fun b => b.findNoted test

/-- A fused call site of a caller. -/
structure Site where
  caller : FuncId
  callee : String
  /-- The number that tells the sites of one callee in one caller apart. -/
  ordinal : UInt64
  /-- The block of the call, which all calls go to. -/
  head : BlockId
  dispatch : BlockId
  call : Option OpId
  caseSlot : Option Reg
  argSlots : List Reg
  resultSlot : Option Reg
deriving DecidableEq, Repr

namespace Site

def siteTags (ordinal : UInt64) : Tags := Tags.empty.attach SiteNote.site (.word ordinal)

/-- The notes of an operation of a site: its ordinal, and the callee under a name. -/
def calleeTags (ordinal : UInt64) (name callee : String) : Tags :=
  (siteTags ordinal).attach name (.str callee)

def argumentTags (ordinal : UInt64) (callee : String) (index : Nat) : Tags :=
  (calleeTags ordinal SiteNote.function callee).attach SiteNote.argument (.word index.toUInt64)

def isIn (tags : Tags) (name callee : String) (ordinal : UInt64) : Bool :=
  tags.notes name (.str callee) && tags.getWord? SiteNote.site = some ordinal

def ordinals (f : Function) : List UInt64 :=
  (f.graph.blockList.flatMap Block.listed).filterMap fun l => l.tags.getWord? SiteNote.site

def nextOrdinal (f : Function) : Edit UInt64 := Counter.nextOrdinal (ordinals f)

/-- A call that is to go through a site. -/
structure Fused where
  op : OpId
  dest : Option Reg
  args : List Operand

/-- The call of `callee` with `arity` arguments that an operation is, if it is one. -/
def fusedCall? (f : Function) (callee : FuncId) (arity : Nat) (op : OpId) : Option Fused := do
  let o ← f.graph.instruction? op
  match o.kind with
  | .call dest c args => if c = callee ∧ args.length = arity then some ⟨op, dest, args⟩ else none
  | _ => none

/-- All of the given operations as calls, if they are different calls of `callee`. -/
def collectCalls (f : Function) (callee : FuncId) (arity : Nat) (ops : List OpId) :
    Option (List Fused) :=
  if ops.eraseDups = ops then ops.mapM (fusedCall? f callee arity) else none

def detach (f : Function) (op : OpId) : Edit (Function × Option (BlockId × BlockId)) :=
  match f.graph.locateInstruction op with
  | none => .ok (f, none)
  | some (b, i) => do
    let (f, tail) ← f.splitBlock b (i + 1)
    match tail with
    | none => return (f, none)
    | some tail =>
      let f := f.modifyBlock b fun b => { b with instructions := b.instructions.eraseIdx i }
      return (f, some (b, tail))

def redirect (f : Function) (b old target : BlockId) : Function :=
  f.modifyBlock b fun b => b.mapTerminator fun t => t.redirect old target

def detachAll (target : BlockId) : List Fused → Function →
    Edit (Function × Option (List (BlockId × BlockId)))
  | [], f => .ok (f, some [])
  | c :: rest, f => do
    let (f, ends) ← detach f c.op
    match ends with
    | none => return (f, none)
    | some (pred, tail) =>
      let (f, more) ← detachAll target rest (redirect f pred tail target)
      return (f, more.map fun more => (pred, tail) :: more)

def reloadResult (f : Function) (b : BlockId) (dest slot : Reg) (ty : Ty) (tags : Tags) :
    Edit Function := do
  let (f, load) ← f.op (Instruction.load dest (.reg slot) ty) tags
  return f.modifyBlock b fun b => b.insertAt 0 load

def reloadResults (slot : Reg) (ty : Ty) (tags : Tags) :
    List (Option Reg × BlockId) → Function → Edit Function
  | [], f => .ok f
  | (none, _) :: rest, f => reloadResults slot ty tags rest f
  | (some dest, b) :: rest, f => do
    let f ← reloadResult f b dest slot ty tags
    reloadResults slot ty tags rest f

def argumentPhis (ordinal : UInt64) (callee : String) (preds : List BlockId)
    (fused : List Fused) : List Ty → Nat → Function →
    Edit (Function × List (Operation Phi) × List Operand)
  | [], _, f => .ok (f, [], [])
  | ty :: tys, index, f => do
    let (f, dest) ← f.freshTyped ty
    let incoming := (preds.zip fused).filterMap fun e => (e.2.args[index]?).map fun o => (e.1, o)
    let (f, phi) ← f.op (Phi.mk dest incoming ty) (argumentTags ordinal callee index)
    let (f, phis, regs) ← argumentPhis ordinal callee preds fused tys (index + 1) f
    return (f, phi :: phis, .reg dest :: regs)

def resultSlots (f : Function) (result : Ty) (tags : Tags) :
    Edit (Function × Option (Reg × Reg)) :=
  if result.isVoid then .ok (f, none)
  else do
    let (f, reg) ← f.freshTyped result
    let (f, slot) ← Spill.createSlot f result tags
    return (f, some (reg, slot))

def storeResult (f : Function) (tags : Tags) :
    Option (Reg × Reg) → Edit (Function × List (Operation Instruction))
  | none => .ok (f, [])
  | some (reg, slot) => do
    let (f, store) ← f.op (Instruction.store (.reg slot) (.reg reg)) tags
    return (f, [store])

def numbered {α : Type} (as : List α) : List (Int64 × α) :=
  as.mapIdx fun i a => (Int64.ofNat i, a)

def fill (f : Function) (caller callee : FuncId) (target : Function) (ordinal : UInt64)
    (block trap : BlockId) (fused : List Fused) (ends : List (BlockId × BlockId)) :
    Edit (Function × Site) := do
  let name := target.name
  let result := target.signature.result
  let preds := ends.map Prod.fst
  let tails := ends.map Prod.snd
  let tags := calleeTags ordinal SiteNote.function name
  let resultTags := calleeTags ordinal SiteNote.result name
  let (f, id) ← f.freshTyped .i64
  let incoming := (numbered preds).map fun e => (e.2, Operand.int e.1)
  let (f, idPhi) ← f.op (Phi.mk id incoming .i64) (tags.attach SiteNote.caseId (.str name))
  let (f, phis, args) ←
    argumentPhis ordinal name preds fused (target.signature.params.map Param.ty) 0 f
  let (f, slots) ← resultSlots f result resultTags
  let (f, start) ← f.op Instruction.marker (calleeTags ordinal SiteNote.start name)
  let (f, call) ← f.op (Instruction.call (slots.map Prod.fst) callee args) tags
  let (f, store) ← storeResult f resultTags slots
  let (f, finish) ← f.op Instruction.marker (calleeTags ordinal SiteNote.finish name)
  let (f, switch) ← f.op (Terminator.switch (.reg id) (numbered tails) trap) tags
  let f := f.modifyBlock block fun b =>
    { b with
      phis := idPhi :: phis
      instructions := start :: call :: store ++ [finish]
      terminator := switch }
  let f ← match slots with
    | none => pure f
    | some (_, slot) =>
      reloadResults slot result resultTags ((fused.map Fused.dest).zip tails) f
  return (f, ⟨caller, name, ordinal, block, block, some call.id, none, [], slots.map Prod.snd⟩)

def fuseCalls (f : Function) (caller callee : FuncId) (target : Function) (fused : List Fused) :
    Edit (Function × Option Site) := do
  let ordinal ← nextOrdinal f
  let (f, trap) ← f.trapBlock
  let (f, block) ← f.createBlock
  let f := f.modifyBlock block fun b => { b with label := some ("fuse." ++ target.name) }
  let (f, ends) ← detachAll block fused f
  match ends with
  | none => return (f, none)
  | some ends => do
    let (f, site) ← fill f caller callee target ordinal block trap fused ends
    return (f, some site)

/-- Fuse the given calls of `callee` in `caller` into a new site. The case numbers follow the order
of the calls. Nothing is done if there are none, or one is given twice, or one is something else. -/
def build (m : Module) (caller callee : FuncId) (ops : List OpId) : Edit (Module × Option Site) :=
  match m.function? callee, m.function? caller with
  | some target, some f =>
    if ops.isEmpty then .ok (m, none)
    else match collectCalls f callee target.signature.params.length ops with
      | none => .ok (m, none)
      | some fused => do
        let (f, site) ← fuseCalls f caller callee target fused
        return (m.setFunction caller f, site)
  | _, _ => .ok (m, none)

/-- What the instructions before the start marker load: the cell of the case number, and the cells
of arguments by their indices. -/
structure Reloads where
  caseSlot : Option Reg
  args : List (UInt64 × Reg)

def Reloads.add (callee : String) (ordinal : UInt64) (r : Reloads) (o : Operation Instruction) :
    Reloads :=
  match o.kind with
  | .load _ (.reg slot) _ =>
    if isIn o.tags SiteNote.caseId callee ordinal then
      { r with caseSlot := r.caseSlot.or (some slot) }
    else if isIn o.tags SiteNote.function callee ordinal then
      match o.tags.getWord? SiteNote.argument with
      | none => r
      | some i =>
        if (r.args.lookup i).isSome then r else { r with args := r.args ++ [(i, slot)] }
    else r
  | _ => r

def Reloads.argSlots? (r : Reloads) : Option (List Reg) :=
  (List.range r.args.length).mapM fun i => r.args.lookup i.toUInt64

def before? (f : Function) (e : Found) : Option (List (Operation Instruction)) :=
  match e.position with
  | .inst i => (f.graph.block? e.block).map fun b => b.instructions.take i
  | _ => none

/-- Whether a marker lies beyond the end of the block that its place names, which can only be if
that block carries the number of another one. -/
def isStray (f : Function) (e : Found) : Bool :=
  match e.position, f.graph.block? e.block with
  | .inst i, some b => b.instructions.length < i
  | _, _ => false

def startMarker? (f : Function) (callee : String) (ordinal : UInt64) : Option Found :=
  (f.findNoted fun t => isIn t SiteNote.start callee ordinal).head?

def finishMarker? (f : Function) (callee : String) (ordinal : UInt64) : Option Found :=
  (f.findNoted fun t => isIn t SiteNote.finish callee ordinal).head?

def reloads? (f : Function) (callee : String) (ordinal : UInt64) : Option Reloads := do
  let start ← startMarker? f callee ordinal
  let insts ← before? f start
  return insts.foldl (Reloads.add callee ordinal) ⟨none, []⟩

def recoverResult? (f : Function) (callee : String) (ordinal : UInt64) : Option Reg := do
  let finish ← finishMarker? f callee ordinal
  let insts ← before? f finish
  insts.reverse.findSome? fun o => match o.kind with
    | .store (.reg slot) _ =>
      if isIn o.tags SiteNote.result callee ordinal then some slot else none
    | _ => none

def isCallAt (f : Function) (op : OpId) : Bool :=
  match f.graph.instruction? op with
  | some o => o.kind.callee?.isSome
  | none => false

def recoverCall? (f : Function) (callee : String) (ordinal : UInt64) : Option OpId :=
  ((f.findNoted fun t => isIn t SiteNote.function callee ordinal).find? fun e =>
    match e.position with
    | .inst _ => isCallAt f e.op
    | _ => false).map Found.op

def recover? (f : Function) (callee : String) (ordinal : UInt64) (dispatch : BlockId) :
    Option Site := do
  let start ← startMarker? f callee ordinal
  let loads ← reloads? f callee ordinal
  let args ← loads.argSlots?
  let head ← f.graph.block? start.block
  return ⟨f.id, callee, ordinal, head.id, dispatch, recoverCall? f callee ordinal,
    loads.caseSlot, args, recoverResult? f callee ordinal⟩

def hasStray (f : Function) (callee : String) (ordinal : UInt64) : Bool :=
  let dense := ((reloads? f callee ordinal).bind Reloads.argSlots?).isSome
  ((startMarker? f callee ordinal).any fun e => isStray f e) ||
    dense && (finishMarker? f callee ordinal).any fun e => isStray f e

def dispatch? (b : Block) : Option (String × UInt64) :=
  match b.terminator.kind with
  | .switch _ _ _ => do
    let callee ← b.terminator.tags.getStr? SiteNote.function
    let ordinal ← b.terminator.tags.getWord? SiteNote.site
    return (callee, ordinal)
  | _ => none

def findAll (f : Function) : List Site :=
  f.graph.blockList.filterMap fun b => do
    let (callee, ordinal) ← dispatch? b
    recover? f callee ordinal b.id

def all (f : Function) : Edit (List Site) :=
  if f.graph.blockList.any fun b => (dispatch? b).any fun (c, n) => hasStray f c n then
    .error .strayMarker
  else .ok (findAll f)

def lower (a b : Site) : Site := if b.ordinal < a.ordinal then b else a

def lowest? (sites : List Site) (callee : String) : Option Site :=
  match sites.filter fun s => s.callee = callee with
  | [] => none
  | s :: rest => some (rest.foldl lower s)

def find (f : Function) (callee : String) : Edit (Option Site) := do
  let sites ← all f
  return lowest? sites callee

def isSpilled (s : Site) : Bool := s.caseSlot.isSome

def cases (s : Site) (f : Function) : List (Int64 × BlockId) :=
  match f.graph.block? s.dispatch with
  | none => []
  | some b => match b.terminator.kind with
    | .switch _ cases _ => cases
    | _ => []

def maxCase? (s : Site) (f : Function) : Option Int64 := ((s.cases f).map Prod.fst).max?

def shiftCase (base id : Int64) : Edit Int64 :=
  let sum := base.toInt + id.toInt
  if -9223372036854775808 ≤ sum ∧ sum ≤ 9223372036854775807 then .ok (base + id)
  else .error (.exhausted .caseId)

def nextCase (s : Site) (f : Function) : Edit Int64 :=
  match s.maxCase? f with
  | none => .ok 0
  | some n => shiftCase 1 n

def storeArguments (s : Site) : List (Reg × Operand) → Nat → Function →
    Edit (Function × List (Operation Instruction))
  | [], _, f => .ok (f, [])
  | (slot, v) :: rest, index, f => do
    let (f, store) ←
      f.op (Instruction.store (.reg slot) v) (argumentTags s.ordinal s.callee index)
    let (f, stores) ← s.storeArguments rest (index + 1) f
    return (f, store :: stores)

def addCases (s : Site) (f : Function) (more : List (Int64 × BlockId)) : Function :=
  f.modifyBlock s.dispatch fun b => b.mapTerminator fun t => match t with
    | .switch v cases d => .switch v (cases ++ more) d
    | t => t

def join (s : Site) (f : Function) (result : Ty) (op : OpId) (caseSlot : Reg) (dest : Option Reg)
    (args : List Operand) : Edit (Function × Bool) := do
  let id ← s.nextCase f
  let (f, ends) ← detach f op
  match ends with
  | none => return (f, false)
  | some (pred, tail) => do
    let (f, store) ← f.op (Instruction.store (.reg caseSlot) (.int id))
      (calleeTags s.ordinal SiteNote.caseId s.callee)
    let (f, stores) ← s.storeArguments (s.argSlots.zip args) 0 f
    let f := f.modifyBlock pred fun b =>
      { b with instructions := b.instructions ++ store :: stores }
    let f := redirect f pred tail s.head
    let f ← match dest, s.resultSlot with
      | some dest, some slot =>
        reloadResult f tail dest slot result (calleeTags s.ordinal SiteNote.result s.callee)
      | _, _ => pure f
    return (s.addCases f [(id, tail)], true)

def admits (s : Site) (callee : Function) (dest : Option Reg) (args : List Operand) : Bool :=
  callee.name = s.callee && args.length = s.argSlots.length &&
    (dest.isNone || s.resultSlot.isSome)

/-- Let one more call go through a site. It gets the next case number. Nothing is done if it is not
a call of the callee of the site, or if the values of the site are not in memory. -/
def extend (s : Site) (m : Module) (op : OpId) : Edit (Module × Bool) :=
  match s.caseSlot, m.function? s.caller with
  | some caseSlot, some f =>
    if s.call = some op then .ok (m, false)
    else match (f.graph.instruction? op).map Operation.kind with
      | some (.call dest callee args) => match m.function? callee with
        | none => .ok (m, false)
        | some c =>
          if s.admits c dest args then do
            let (f, joined) ← s.join f c.signature.result op caseSlot dest args
            return (m.setFunction s.caller f, joined)
          else .ok (m, false)
      | _ => .ok (m, false)
  | _, _ => .ok (m, false)

def isCompatible (s other : Site) (f : Function) : Bool :=
  f.id = s.caller && other.caller = s.caller && other.callee = s.callee &&
    other.ordinal ≠ s.ordinal && other.head ≠ s.head && other.dispatch ≠ s.dispatch &&
    other.argSlots.length = s.argSlots.length && other.resultSlot.isSome = s.resultSlot.isSome

def raiseStore (slot : Reg) (base : Int64) : Instruction → Edit Instruction
  | .store p v =>
    if p.isReg slot then
      match v.const?.bind Const.integer? with
      | some id => do
        let sum ← shiftCase base id
        return .store p (.int sum)
      | none => .ok (.store p v)
    else .ok (.store p v)
  | i => .ok i

def raiseStores (slot : Reg) (base : Int64) :
    List (Operation Instruction) → Edit (List (Operation Instruction))
  | [] => .ok []
  | o :: rest => do
    let i ← raiseStore slot base o.kind
    let rest ← raiseStores slot base rest
    return o.map (fun _ => i) :: rest

def raiseBlocks (slot : Reg) (base : Int64) : List BlockId → Function → Edit Function
  | [], f => .ok f
  | key :: rest, f => match f.graph.block? key with
    | none => raiseBlocks slot base rest f
    | some b => do
      let insts ← raiseStores slot base b.instructions
      raiseBlocks slot base rest (f.modifyBlock key fun b => { b with instructions := insts })

def raiseCases (base : Int64) : List (Int64 × BlockId) → Edit (List (Int64 × BlockId))
  | [] => .ok []
  | (id, target) :: rest => do
    let id ← shiftCase base id
    let rest ← raiseCases base rest
    return (id, target) :: rest

def replaceUses (f : Function) (old new : Reg) : Function :=
  { f with
    graph := f.graph.mapBlocks fun b =>
      ((b.mapPhis fun p => p.mapOperands fun o => o.replace old (.reg new)).mapInstructions
        fun i => i.replaceUse old (.reg new)).mapTerminator fun t =>
          t.replaceUse old (.reg new) }

def replaceAll (f : Function) (pairs : List (Reg × Reg)) : Function :=
  pairs.foldl (fun f p => replaceUses f p.1 p.2) f

def slotPairs (s other : Site) (own theirs : Reg) : List (Reg × Reg) :=
  (theirs, own) :: other.argSlots.zip s.argSlots ++
    other.resultSlot.toList.zip s.resultSlot.toList

def dropSlots (f : Function) (ordinal : UInt64) : Function :=
  let used := f.uses
  f.modifyBlock f.graph.entry fun b =>
    { b with
      instructions := b.instructions.filter fun o => match o.kind with
        | .alloca d _ =>
          o.tags.getWord? SiteNote.site ≠ some ordinal || used.contains d
        | _ => true }

def dispatches (s : Site) (f : Function) : Bool :=
  match f.graph.block? s.dispatch with
  | none => false
  | some b => match b.terminator.kind with
    | .switch _ _ _ => true
    | _ => false

def absorb (s other : Site) (f : Function) (own theirs : Reg) : Edit Function := do
  let base ← s.nextCase f
  let cases := other.cases f
  let f ← raiseBlocks theirs base f.graph.blocks.keys f
  let f := (f.graph.predecessors other.head).foldl (fun f p => redirect f p other.head s.head) f
  let f := replaceAll f (slotPairs s other own theirs)
  let more ← if s.dispatches f then raiseCases base cases else pure []
  let f := s.addCases f more
  let f := f.modifyBlock other.dispatch fun b =>
    { b with terminator := ⟨b.terminator.id, .unreachable, .empty⟩ }
  return dropSlots f.removeDeadBlocks other.ordinal

/-- Make one site of two. The case numbers of the other site are raised above those of this one,
its calls come to this one, and what only it needed is removed. Nothing is done unless both are in
memory and fit. -/
def merge (s : Site) (f : Function) (other : Site) : Edit (Function × Bool) :=
  match s.caseSlot, other.caseSlot with
  | some own, some theirs =>
    if s.isCompatible other f then do
      let f ← s.absorb other f own theirs
      return (f, true)
    else .ok (f, false)
  | _, _ => .ok (f, false)

end Site

end SiteFusion
