import SiteFusion.Fusion.Rounds

namespace SiteFusion

namespace Rounds

variable {α β : Type}

/-- What is done to calls. -/
inductive CallEvent
  | fusing (calls : List (FuncId × OpId))
  | joining (call : FuncId × OpId)
  | inlining (call : FuncId × OpId)
  | refused (call : FuncId × OpId)
deriving DecidableEq, Repr

namespace CallEvent

/-- The calls that are to become part of a site. -/
def fused : CallEvent → List (FuncId × OpId)
  | fusing calls => calls
  | joining call => [call]
  | inlining _ | refused _ => []

/-- The call that is to be inlined. -/
def inlined? : CallEvent → Option (FuncId × OpId)
  | inlining call => some call
  | fusing _ | joining _ | refused _ => none

theorem inlined?_eq_some {x : CallEvent} {c : FuncId × OpId} :
    x.inlined? = some c ↔ x = inlining c := by
  cases x <;> simp [inlined?]

def Allows (x y : CallEvent) : Prop :=
  (∀ c, x = inlining c → y ≠ inlining c) ∧ ∀ c, x = refused c → c ∉ y.fused

end CallEvent

/-- A computation with a record of what was done to calls, which remains when it breaks off. -/
structure Recorded (α : Type) where
  events : List CallEvent
  result : Edit α

namespace Recorded

instance : Monad Recorded where
  pure a := ⟨[], .ok a⟩
  bind x f := match x.result with
    | .error e => ⟨x.events, .error e⟩
    | .ok a => ⟨x.events ++ (f a).events, (f a).result⟩

def lift (x : Edit α) : Recorded α := ⟨[], x⟩

def note (x : CallEvent) : Recorded Unit := ⟨[x], .ok ()⟩

def extendSite (site : Site) (caller : FuncId) : List OpId → Rounds → Bool →
    Recorded (Rounds × Bool)
  | [], s, changed => pure (s, changed)
  | op :: rest, s, changed =>
    if site.call = some op then extendSite site caller rest (s.enqueue caller op) changed
    else do
      note (.joining (site.caller, op))
      let (m, joined) ← lift (site.extend s.module op)
      let s := { s with module := m }
      if joined then
        let s := { s with count := { s.count with extended := s.count.extended + 1 } }
        extendSite site caller rest s true
      else extendSite site caller rest (s.enqueue caller op) changed

def buildSite (s : Rounds) (caller : FuncId) (g : CallGroup) : Recorded (Rounds × Bool) := do
  note (.fusing (g.calls.map fun op => (caller, op)))
  lift (s.buildSite caller g)

def fuseGroup (s : Rounds) (caller : FuncId) (g : CallGroup) : Recorded (Checked × Bool) :=
  match g.calls with
  | [op] => pure ((s.enqueue caller op, none), false)
  | calls => match s.module.function? g.callee with
    | none => pure ((s, none), false)
    | some callee => do
      let ((s, e), site) ← lift (s.existingSite caller callee.name)
      match e, site with
      | some e, _ => return ((s, some e), false)
      | none, some site =>
        let (s, changed) ← extendSite site caller calls s false
        return ((s, none), changed)
      | none, none =>
        let (s, changed) ← buildSite s caller g
        return ((s, none), changed)

def fuseGroups (caller : FuncId) : List CallGroup → Rounds → Bool → Recorded (Checked × Bool)
  | [], s, changed => pure ((s, none), changed)
  | g :: gs, s, changed => do
    let ((s, e), now) ← fuseGroup s caller g
    match e with
    | some e => return ((s, some e), changed)
    | none => fuseGroups caller gs s (changed || now)

def fuseCallers : List CallerGroups → Rounds → Recorded Checked
  | [], s => pure (s, none)
  | c :: cs, s => do
    let ((s, e), changed) ← fuseGroups c.caller c.groups s false
    match e with
    | some e => return (s, some e)
    | none =>
      let (s, e) ← if changed then lift (s.spill c.caller) else pure (s, none)
      match e with
      | some e => return (s, some e)
      | none => fuseCallers cs s

def fuseCandidates (s : Rounds) : Recorded Checked :=
  fuseCallers (Candidates.discover s.module s.excluded s.settings) s

/-- Whether a call cannot be inlined. -/
def isRefused (m : Module) (caller : FuncId) (op : OpId) : Bool :=
  match Inline.inlineCall m caller op with
  | .ok (.error _) => true
  | _ => false

def inlineOne (s : Rounds) (caller : FuncId) (op : OpId) (touched : List FuncId) :
    Recorded (Rounds × List FuncId) := do
  note (.inlining (caller, op))
  if isRefused s.module caller op then note (.refused (caller, op))
  lift (s.inlineOne caller op touched)

def inlineEach : List (FuncId × OpId) → Rounds → List FuncId → Recorded (Rounds × List FuncId)
  | [], s, touched => pure (s, touched)
  | (caller, op) :: rest, s, touched => do
    let (s, touched) ← inlineOne s caller op touched
    inlineEach rest s touched

def loop : Nat → Rounds → Recorded Checked
  | 0, s => pure ({ s with queue := [] }, none)
  | n + 1, s =>
    if s.queue.isEmpty then pure (s, none)
    else do
      let (s, touched) ← inlineEach s.queue.reverse { s with queue := [] } []
      let (s, e) ← lift (mergeEach touched s)
      match e with
      | some e => return (s, some e)
      | none =>
        let (s, e) ← fuseCandidates s
        match e with
        | some e => return (s, some e)
        | none => loop n { s with callers := touched.foldl addNew s.callers }

def run (s : Rounds) : Recorded Checked := do
  let (s, e) ← fuseCandidates s
  match e with
  | some e => return (s, some e)
  | none =>
    let (s, e) ← loop s.settings.maxIterations s
    match e with
    | some e => return (s, some e)
    | none => return ({ s with module := removeDead s.module s.callers }.removeCallees, none)

theorem result_bind (x : Recorded α) (f : α → Recorded β) :
    (x >>= f).result = x.result >>= fun a => (f a).result := by
  cases x with
  | mk events result =>
    cases result with
    | error e => rfl
    | ok a => rfl

theorem bind_congr_result {x : Recorded α} {y : Edit α} {f : α → Recorded β} {g : α → Edit β}
    (hx : x.result = y) (hf : ∀ a, (f a).result = g a) : (x >>= f).result = y >>= g := by
  rw [result_bind, hx]
  exact congrArg (y >>= ·) (funext hf)

theorem result_extendSite (site : Site) (caller : FuncId) (ops : List OpId) (s : Rounds)
    (c : Bool) : (extendSite site caller ops s c).result = Rounds.extendSite site caller ops s c := by
  induction ops generalizing s c with
  | nil => rfl
  | cons op ops ih =>
    rw [extendSite, Rounds.extendSite]
    split
    · exact ih _ _
    · refine bind_congr_result (x := lift (site.extend s.module op)) rfl fun y => ?_
      obtain ⟨m, joined⟩ := y
      cases joined with
      | true => exact ih _ _
      | false => exact ih _ _

theorem result_fuseGroup (s : Rounds) (caller : FuncId) (g : CallGroup) :
    (fuseGroup s caller g).result = s.fuseGroup caller g := by
  obtain ⟨callee, calls⟩ := g
  rcases calls with _ | ⟨op, _ | ⟨op', rest⟩⟩
  case cons.nil => rfl
  all_goals
    dsimp only [fuseGroup, Rounds.fuseGroup]
    cases s.module.function? callee with
    | none => rfl
    | some f =>
      refine bind_congr_result rfl fun y => ?_
      obtain ⟨⟨s, e⟩, site⟩ := y
      cases e with
      | some e => rfl
      | none =>
        cases site with
        | some site => exact bind_congr_result (result_extendSite ..) fun _ => rfl
        | none => exact bind_congr_result (x := buildSite s caller _) rfl fun _ => rfl

theorem result_fuseGroups (caller : FuncId) (gs : List CallGroup) (s : Rounds) (c : Bool) :
    (fuseGroups caller gs s c).result = Rounds.fuseGroups caller gs s c := by
  induction gs generalizing s c with
  | nil => rfl
  | cons g gs ih =>
    refine bind_congr_result (result_fuseGroup s caller g) fun y => ?_
    obtain ⟨⟨s, e⟩, now⟩ := y
    cases e with
    | some e => rfl
    | none => exact ih _ _

theorem result_fuseCallers (cs : List CallerGroups) (s : Rounds) :
    (fuseCallers cs s).result = Rounds.fuseCallers cs s := by
  induction cs generalizing s with
  | nil => rfl
  | cons c cs ih =>
    refine bind_congr_result (result_fuseGroups c.caller c.groups s false)
      fun y => ?_
    obtain ⟨⟨s, e⟩, changed⟩ := y
    cases e with
    | some e => rfl
    | none =>
      cases changed with
      | true =>
        refine bind_congr_result (x := lift (s.spill c.caller)) rfl fun y => ?_
        obtain ⟨s, e⟩ := y
        cases e with
        | some e => rfl
        | none => exact ih s
      | false => exact ih s

theorem result_inlineEach (calls : List (FuncId × OpId)) (s : Rounds) (touched : List FuncId) :
    (inlineEach calls s touched).result = Rounds.inlineEach calls s touched := by
  induction calls generalizing s touched with
  | nil => rfl
  | cons c calls ih =>
    obtain ⟨caller, op⟩ := c
    refine bind_congr_result ?_ fun x => ih x.1 x.2
    unfold inlineOne
    split
    · rfl
    · rfl

theorem result_loop (n : Nat) (s : Rounds) : (loop n s).result = Rounds.loop n s := by
  induction n generalizing s with
  | zero => rfl
  | succ n ih =>
    unfold loop Rounds.loop
    split
    · rfl
    · refine bind_congr_result (result_inlineEach ..) fun y => ?_
      obtain ⟨s, touched⟩ := y
      refine bind_congr_result rfl fun y => ?_
      obtain ⟨s, e⟩ := y
      cases e with
      | some e => rfl
      | none =>
        refine bind_congr_result (result_fuseCallers ..) fun y => ?_
        obtain ⟨s, e⟩ := y
        cases e with
        | some e => rfl
        | none => exact ih _

theorem result_run (s : Rounds) : (run s).result = s.run := by
  refine bind_congr_result (result_fuseCallers ..) fun y => ?_
  obtain ⟨s, e⟩ := y
  cases e with
  | some e => rfl
  | none =>
    refine bind_congr_result (result_loop ..) fun y => ?_
    obtain ⟨s, e⟩ := y
    cases e with
    | some e => rfl
    | none => rfl

end Recorded

end Rounds

end SiteFusion
