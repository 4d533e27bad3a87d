import SiteFusion.Analysis.Validity
import SiteFusion.Fusion.Candidates
import SiteFusion.Fusion.Site
import SiteFusion.Pipeline.Grammar
import SiteFusion.Transform.Inline

namespace SiteFusion

/-- Why fusion stops. -/
inductive FusionFault
  | pipeline (e : Pipeline.Fault)
  | spill (function : String) (e : SpillFault)
  | invalid (findings : List Finding)
deriving DecidableEq, Repr

def FusionFault.message : FusionFault → String
  | .pipeline e => "prepare pipeline: " ++ e.message
  | .spill f e => "cannot demote '" ++ f ++ "': " ++ e.message
  | .invalid fs =>
    "module is invalid after fusion (" ++ toString fs.length ++ " errors)" ++
      String.join (fs.map fun f => "\n  " ++ f.text)

structure FusionCount where
  inlined : Nat
  failed : Nat
  functions : Nat
  registers : Nat
  phis : Nat
  fused : Nat
  extended : Nat
  merged : Nat
deriving DecidableEq, Repr

namespace FusionCount

def zero : FusionCount := ⟨0, 0, 0, 0, 0, 0, 0, 0⟩

/-- Whether anything was changed. A call that could not be inlined changes nothing. -/
def modified (c : FusionCount) : Bool :=
  0 < c.inlined + c.functions + c.registers + c.phis + c.fused + c.extended + c.merged

def report (c : FusionCount) : Report :=
  let r := if c.modified then Report.changed else .unchanged
  [("inlined_calls", c.inlined), ("failed_inlined_calls", c.failed),
    ("fused_functions", c.functions), ("registers_demoted", c.registers),
    ("phis_demoted", c.phis), ("fused_call_sites", c.fused), ("extended_call_sites", c.extended),
    ("merged_call_sites", c.merged)].foldl (fun r e => r.count e.1 e.2) r

end FusionCount

/-- Where fusion stands. -/
structure Rounds where
  settings : Settings
  module : Module
  /-- Calls that could not be inlined, and are not tried again. -/
  excluded : List (FuncId × OpId)
  /-- Calls that wait to be inlined. The last one is taken first. -/
  queue : List (FuncId × OpId)
  callees : List FuncId
  callers : List FuncId
  count : FusionCount

namespace Rounds

variable {α : Type} [DecidableEq α]

def addNew (as : List α) (a : α) : List α := if as.contains a then as else as ++ [a]

def start (settings : Settings) (m : Module) : Rounds := ⟨settings, m, [], [], [], [], .zero⟩

def enqueue (s : Rounds) (caller : FuncId) (op : OpId) : Rounds :=
  { s with queue := addNew s.queue (caller, op) }

abbrev Checked := Rounds × Option FusionFault

def addSpilled (s : Rounds) (n : SpillCount) : Rounds :=
  { s with
    count := { s.count with
      registers := s.count.registers + n.registers
      phis := s.count.phis + n.phis } }

def spill (s : Rounds) (key : FuncId) : Edit Checked :=
  match s.module.function? key with
  | none => .ok (s, none)
  | some f => do
    match ← Spill.demote f with
    | .error e => return (s, some (.spill f.name e))
    | .ok (f, n) => return ({ s with module := s.module.setFunction key f }.addSpilled n, none)

def spilledSite (s : Rounds) (caller : FuncId) (callee : String) :
    Edit (Checked × Option Site) := do
  let (s, e) ← s.spill caller
  match e, s.module.function? caller with
  | none, some f => do
    let site ← Site.find f callee
    return ((s, none), site.filter Site.isSpilled)
  | e, _ => return ((s, e), none)

def existingSite (s : Rounds) (caller : FuncId) (callee : String) :
    Edit (Checked × Option Site) :=
  match s.module.function? caller with
  | none => .ok ((s, none), none)
  | some f => do
    let site ← Site.find f callee
    if site.all Site.isSpilled then return ((s, none), site)
    else s.spilledSite caller callee

def extendSite (site : Site) (caller : FuncId) : List OpId → Rounds → Bool →
    Edit (Rounds × Bool)
  | [], s, changed => .ok (s, changed)
  | op :: rest, s, changed =>
    if site.call = some op then extendSite site caller rest (s.enqueue caller op) changed
    else do
      let (m, joined) ← site.extend s.module op
      let s := { s with module := m }
      if joined then
        let s := { s with count := { s.count with extended := s.count.extended + 1 } }
        extendSite site caller rest s true
      else extendSite site caller rest (s.enqueue caller op) changed

def buildSite (s : Rounds) (caller : FuncId) (g : CallGroup) : Edit (Rounds × Bool) := do
  let (m, site) ← Site.build s.module caller g.callee g.calls
  let s := { s with module := m }
  match site with
  | some site =>
    let s := { s with count := { s.count with fused := s.count.fused + 1 } }
    return ((site.call.map fun op => s.enqueue caller op).getD s, true)
  | none => return (g.calls.foldl (fun s op => s.enqueue caller op) s, false)

/-- Deal with the calls of one callee in one caller. Says whether the caller was changed. -/
def fuseGroup (s : Rounds) (caller : FuncId) (g : CallGroup) : Edit (Checked × Bool) :=
  match g.calls with
  | [op] => .ok ((s.enqueue caller op, none), false)
  | calls => match s.module.function? g.callee with
    | none => .ok ((s, none), false)
    | some callee => do
      let ((s, e), site) ← s.existingSite caller callee.name
      match e, site with
      | some e, _ => return ((s, some e), false)
      | none, some site =>
        let (s, changed) ← extendSite site caller calls s false
        return ((s, none), changed)
      | none, none =>
        let (s, changed) ← s.buildSite caller g
        return ((s, none), changed)

def fuseGroups (caller : FuncId) : List CallGroup → Rounds → Bool → Edit (Checked × Bool)
  | [], s, changed => .ok ((s, none), changed)
  | g :: gs, s, changed => do
    let ((s, e), now) ← s.fuseGroup caller g
    match e with
    | some e => return ((s, some e), changed)
    | none => fuseGroups caller gs s (changed || now)

/-- Deal with all calls, and move the values of callers that were changed to memory. -/
def fuseCallers : List CallerGroups → Rounds → Edit Checked
  | [], s => .ok (s, none)
  | c :: cs, s => do
    let ((s, e), changed) ← fuseGroups c.caller c.groups s false
    match e with
    | some e => return (s, some e)
    | none =>
      let (s, e) ← if changed then s.spill c.caller else pure (s, none)
      match e with
      | some e => return (s, some e)
      | none => fuseCallers cs s

def fuseCandidates (s : Rounds) : Edit Checked :=
  fuseCallers (Candidates.discover s.module s.excluded s.settings) s

def copiedOrdinals (f : Function) (copied : List OpId) : List UInt64 :=
  (f.graph.blockList.flatMap Block.listed).filterMap fun l =>
    if copied.contains l.op then l.tags.getWord? SiteNote.site else none

def ownOrdinals (f : Function) (copied : List OpId) : List UInt64 :=
  (f.graph.blockList.flatMap Block.listed).filterMap fun l =>
    if copied.contains l.op then none else l.tags.getWord? SiteNote.site

def renumber : List UInt64 → UInt64 → Table UInt64 UInt64 → Edit (Table UInt64 UInt64)
  | [], _, t => .ok t
  | n :: ns, next, t =>
    if t.contains n then renumber ns next t
    else if next < 18446744073709551615 then renumber ns (next + 1) (t.insert n next)
    else .error (.exhausted .ordinal)

def restampTags (t : Table UInt64 UInt64) (tags : Tags) : Tags :=
  match tags.getWord? SiteNote.site with
  | none => tags
  | some n => tags.attach SiteNote.site (.word ((t.get? n).getD n))

def restamp (f : Function) (copied : List OpId) : Edit Function := do
  let next ← Counter.nextOrdinal (ownOrdinals f copied)
  let t ← renumber (copiedOrdinals f copied) next .empty
  return { f with
    graph := f.graph.mapBlocks fun b => b.mapTags fun op tags =>
      if copied.contains op then restampTags t tags else tags }

def inlineOne (s : Rounds) (caller : FuncId) (op : OpId) (touched : List FuncId) :
    Edit (Rounds × List FuncId) := do
  let callee := ((s.module.function? caller).bind fun f => f.graph.instruction? op).bind
    fun o => o.kind.callee?
  match ← Inline.inlineCall s.module caller op with
  | .error _ =>
    return ({ s with
      excluded := addNew s.excluded (caller, op)
      count := { s.count with failed := s.count.failed + 1 } }, touched)
  | .ok (m, inlined) =>
    let m ← match m.function? caller with
      | none => pure m
      | some f => do
        let f ← restamp f inlined.cloned
        pure (m.setFunction caller f)
    return ({ s with
      module := m
      callees := (callee.map fun c => addNew s.callees c).getD s.callees
      count := { s.count with inlined := s.count.inlined + 1 } }, addNew touched caller)

def inlineEach : List (FuncId × OpId) → Rounds → List FuncId → Edit (Rounds × List FuncId)
  | [], s, touched => .ok (s, touched)
  | (caller, op) :: rest, s, touched => do
    let (s, touched) ← s.inlineOne caller op touched
    inlineEach rest s touched

def inlineQueued (s : Rounds) : Edit (Rounds × List FuncId) :=
  inlineEach s.queue.reverse { s with queue := [] } []

def siteLe (a b : Site) : Bool :=
  a.callee < b.callee || a.callee = b.callee && a.ordinal ≤ b.ordinal

def duplicatePair? (sites : List Site) (skipped : List (String × UInt64)) : Option (Site × Site) :=
  sites.findSome? fun other =>
    if skipped.contains (other.callee, other.ordinal) then none
    else match sites.find? fun s => s.callee = other.callee with
      | none => none
      | some keep => if keep.ordinal < other.ordinal then some (keep, other) else none

/-- How merging goes on: which sites are left alone, whether values were moved to memory, and how
many sites are merged. -/
structure Merging where
  skipped : List (String × UInt64)
  spilled : Bool
  merged : Nat

def mergeLoop (key : FuncId) : Nat → Rounds → Merging → Edit (Checked × Merging)
  | 0, s, g => .ok ((s, none), g)
  | n + 1, s, g => match s.module.function? key with
    | none => .ok ((s, none), g)
    | some f => do
      let sites ← Site.all f
      match duplicatePair? (sites.mergeSort siteLe) g.skipped with
      | none => return ((s, none), g)
      | some (keep, other) =>
        if !(keep.isSpilled && other.isSpilled) && !g.spilled then
          let (s, e) ← s.spill key
          match e with
          | some e => return ((s, some e), g)
          | none => mergeLoop key n s { g with spilled := true }
        else
          let (f, done) ← keep.merge f other
          let s := { s with module := s.module.setFunction key f }
          if done then mergeLoop key n s { g with merged := g.merged + 1 }
          else
            mergeLoop key n s { g with skipped := (other.callee, other.ordinal) :: g.skipped }

def dispatchCount (f : Function) : Nat := (f.graph.blockList.filterMap Site.dispatch?).length

/-- Merge the sites of a function. Each turn takes away a switch or skips a site, but for the one
that moves values to memory. -/
def mergeSites (s : Rounds) (key : FuncId) : Edit Checked :=
  match s.module.function? key with
  | none => .ok (s, none)
  | some f => do
    let ((s, e), g) ← mergeLoop key (2 * dispatchCount f + 2) s ⟨[], false, 0⟩
    match e with
    | some e => return (s, some e)
    | none =>
      if 0 < g.merged then
        let s := { s with count := { s.count with merged := s.count.merged + g.merged } }
        s.spill key
      else return (s, none)

def mergeEach : List FuncId → Rounds → Edit Checked
  | [], s => .ok (s, none)
  | k :: ks, s => do
    let (s, e) ← s.mergeSites k
    match e with
    | some e => return (s, some e)
    | none => mergeEach ks s

def loop : Nat → Rounds → Edit Checked
  | 0, s => .ok ({ s with queue := [] }, none)
  | n + 1, s =>
    if s.queue.isEmpty then .ok (s, none)
    else do
      let (s, touched) ← s.inlineQueued
      let (s, e) ← mergeEach touched s
      match e with
      | some e => return (s, some e)
      | none =>
        let (s, e) ← s.fuseCandidates
        match e with
        | some e => return (s, some e)
        | none => loop n { s with callers := touched.foldl addNew s.callers }

/-- Remove blocks that cannot be reached, such as those after a call that never returns. -/
def removeDead (m : Module) (keys : List FuncId) : Module :=
  keys.foldl (fun m k => m.modifyFunction k Function.removeDeadBlocks) m

def dropRefs (callees : List FuncId) (f : Function) : Function :=
  if f.isOptimizable then
    let used := f.uses
    { f with
      graph := f.graph.mapBlocks fun b =>
        { b with
          instructions := b.instructions.filter fun o => match o.kind with
            | .functionRef d c => !callees.contains c || used.contains d
            | _ => true } }
  else f

def unused (m : Module) (callees : List FuncId) : List FuncId :=
  callees.filter fun c => match m.function? c with
    | none => false
    | some f => f.attributes.linkage.isLocal && m.functionUseCount c = 0

def removeUnused (callees : List FuncId) : Nat → Module → Nat → Module × Nat
  | 0, m, n => (m, n)
  | fuel + 1, m, n => match unused m callees with
    | [] => (m, n)
    | dead => removeUnused callees fuel (dead.foldl Module.removeFunction m) (n + dead.length)

def removeCallees (s : Rounds) : Rounds :=
  let m := { s.module with functions := s.module.functions.map (dropRefs s.callees) }
  let (m, n) := removeUnused s.callees (s.callees.length + 1) m 0
  { s with
    module := m
    count := { s.count with functions := s.count.functions + n } }

def run (s : Rounds) : Edit Checked := do
  let (s, e) ← s.fuseCandidates
  match e with
  | some e => return (s, some e)
  | none =>
    let (s, e) ← loop s.settings.maxIterations s
    match e with
    | some e => return (s, some e)
    | none => return ({ s with module := removeDead s.module s.callers }.removeCallees, none)

end Rounds

end SiteFusion
