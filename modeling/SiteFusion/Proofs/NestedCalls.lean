import SiteFusion.Machine.Run

namespace SiteFusion.Machine

/-- What a step of an activation asks for. -/
inductive Request
  | goOn (a : Activation) (memory : Array Value)
  | call (a : Activation) (dest : Option Reg) (callee : FuncId) (args : List Value)
  | finish (outcome : Except Fault (Option Value))

def request (cells : Table GlobalId Nat) (a : Activation) (memory : Array Value) : Request :=
  match a.task with
  | .phis source phi rest read block => match stepPhi a source phi rest read block with
    | .error e => .finish (.error e)
    | .ok a => .goOn a memory
  | .body (o :: rest) t =>
    let a := { a with task := .body rest t }
    match effect cells a memory o.kind with
    | .error e => .finish (.error e)
    | .ok (.define d v) => .goOn (a.set d v) memory
    | .ok (.allocate d v) => .goOn (a.set d (.ptr memory.size)) (memory.push v)
    | .ok (.write c v) => .goOn a (memory.setIfInBounds c v)
    | .ok .nothing => .goOn a memory
    | .ok (.call d callee args) => .call a d callee args
  | .body [] t => match leave a t with
    | .error e => .finish (.error e)
    | .ok (.back result) => .finish (.ok result)
    | .ok (.goto target) => match enter a.function a.registers (some a.label) target with
      | .error e => .finish (.error e)
      | .ok a => .goOn a memory

def Request.answer (m : Module) (callers : List Caller) (memory : Array Value) : Request → Next
  | .goOn a memory => .running ⟨a, callers, memory⟩
  | .call a dest callee args => match invoke m (callers.length + 1) callee args with
    | .error e => .halted (.error e) memory
    | .ok b => .running ⟨b, ⟨a, dest⟩ :: callers, memory⟩
  | .finish (.error e) => .halted (.error e) memory
  | .finish (.ok v) => match callers with
    | [] => .halted (.ok v) memory
    | c :: callers => .running ⟨resume c v, callers, memory⟩

/-- What calls have in common: memory, the steps that are left, and how many of them are open. -/
structure Shared where
  memory : Array Value
  left : Nat
  depth : Nat

abbrev Shared.Result := Except Fault (Option Value) × Shared

def callWith (m : Module) (runs : Activation → Shared → Shared.Result) (s : Shared) (callee : FuncId)
    (args : List Value) : Shared.Result :=
  match invoke m s.depth callee args with
  | .error e => (.error e, s)
  | .ok a =>
    let r := runs a { s with depth := s.depth + 1 }
    (r.1, { r.2 with depth := r.2.depth - 1 })

def runNested (m : Module) (cells : Table GlobalId Nat) : Nat → Activation → Shared → Shared.Result
  | 0, _, s => (.error .outOfSteps, s)
  | fuel + 1, a, s =>
    match s.left with
    | 0 => (.error .outOfSteps, s)
    | left + 1 => match request cells a s.memory with
      | .finish outcome => (outcome, { s with left })
      | .goOn a memory => runNested m cells fuel a { s with left, memory }
      | .call a dest callee args =>
        match callWith m (runNested m cells fuel) { s with left } callee args with
        | (.error e, s) => (.error e, s)
        | (.ok v, s) => runNested m cells fuel (resume ⟨a, dest⟩ v) s

def callNested (m : Module) (cells : Table GlobalId Nat) (s : Shared) (callee : FuncId)
    (args : List Value) : Shared.Result :=
  callWith m (runNested m cells s.left) s callee args

def Shared.Result.deliver (m : Module) (cells : Table GlobalId Nat) (callers : List Caller)
    (r : Shared.Result) : Machine.Result :=
  match r.1, callers with
  | .error e, _ => ⟨.error e, r.2.memory, r.2.left⟩
  | .ok v, [] => ⟨.ok v, r.2.memory, r.2.left⟩
  | .ok v, c :: callers => run m cells r.2.left ⟨resume c v, callers, r.2.memory⟩

section

variable {m : Module} {cells : Table GlobalId Nat} {a b : Activation} {s : Shared} {n : Nat}
  {callers : List Caller} {memory : Array Value} {callee : FuncId} {args : List Value}

theorem step_eq : step m cells ⟨a, callers, memory⟩ =
    (request cells a memory).answer m callers memory := by
  unfold step request
  cases a.task with
  | phis source phi rest read block =>
    cases h : stepPhi a source phi rest read block <;> simp [h, Request.answer]
  | body rest t =>
    cases rest with
    | nil =>
      simp only [stepTerminator]
      cases leave a t with
      | error e => rfl
      | ok x =>
        cases x with
        | back v => cases callers <;> rfl
        | goto l =>
          cases h : enter a.function a.registers (some a.label) l <;> simp [h, Request.answer]
    | cons o rest =>
      simp only [stepInstruction]
      cases effect cells { a with task := .body rest t } memory o.kind with
      | error e => rfl
      | ok x => cases x <;> rfl

variable {left depth : Nat}

theorem runNested_finish {outcome : Except Fault (Option Value)}
    (h : request cells a memory = .finish outcome) :
    runNested m cells (n + 1) a ⟨memory, left + 1, depth⟩ = (outcome, ⟨memory, left, depth⟩) := by
  simp only [runNested, h]

theorem runNested_goOn {memory' : Array Value} (h : request cells a memory = .goOn b memory') :
    runNested m cells (n + 1) a ⟨memory, left + 1, depth⟩ =
      runNested m cells n b ⟨memory', left, depth⟩ := by
  simp only [runNested, h]

def Shared.Result.resume (m : Module) (cells : Table GlobalId Nat) (fuel : Nat) (c : Caller)
    (r : Shared.Result) : Shared.Result :=
  match r.1 with
  | .error e => (.error e, r.2)
  | .ok v => runNested m cells fuel (Machine.resume c v) r.2

theorem runNested_call {dest : Option Reg} (h : request cells a memory = .call b dest callee args) :
    runNested m cells (n + 1) a ⟨memory, left + 1, depth⟩ =
      (callWith m (runNested m cells n) ⟨memory, left, depth⟩ callee args).resume m cells n
        ⟨b, dest⟩ := by
  simp only [runNested, h, Shared.Result.resume]
  split <;> simp_all

def Shared.Result.Keeps (s : Shared) (r : Shared.Result) : Prop :=
  r.2.depth = s.depth ∧ r.2.left ≤ s.left

theorem callWith_keeps {runs : Activation → Shared → Shared.Result}
    (h : ∀ a s, (runs a s).Keeps s) : (callWith m runs s callee args).Keeps s := by
  unfold callWith
  split
  · exact ⟨rfl, Nat.le_refl _⟩
  · next a _ =>
    obtain ⟨hdepth, hleft⟩ := h a { s with depth := s.depth + 1 }
    exact ⟨by simp [hdepth], hleft⟩

theorem runNested_keeps (n : Nat) (a : Activation) (s : Shared) :
    (runNested m cells n a s).Keeps s := by
  induction n generalizing a s with
  | zero => exact ⟨rfl, Nat.le_refl _⟩
  | succ n ih =>
    obtain ⟨memory, left, depth⟩ := s
    cases left with
    | zero => exact ⟨rfl, Nat.le_refl _⟩
    | succ left =>
      cases h : request cells a memory with
      | finish outcome =>
        rw [runNested_finish h]
        exact ⟨rfl, Nat.le_succ _⟩
      | goOn b memory' =>
        rw [runNested_goOn h]
        obtain ⟨hdepth, hleft⟩ := ih b ⟨memory', left, depth⟩
        exact ⟨hdepth, Nat.le_succ_of_le hleft⟩
      | call b dest callee args =>
        rw [runNested_call h]
        obtain ⟨hdepth, hleft⟩ :
            (callWith m (runNested m cells n) ⟨memory, left, depth⟩ callee args).Keeps
              ⟨memory, left, depth⟩ := callWith_keeps ih
        rw [Shared.Result.resume]
        split
        · exact ⟨hdepth, Nat.le_succ_of_le hleft⟩
        · next v _ =>
          obtain ⟨hdepth', hleft'⟩ := ih (Machine.resume ⟨b, dest⟩ v)
            (callWith m (runNested m cells n) ⟨memory, left, depth⟩ callee args).2
          exact ⟨hdepth'.trans hdepth, Nat.le_succ_of_le (Nat.le_trans hleft' hleft)⟩

def Shared.extend (s : Shared) (k : Nat) : Shared := { s with left := s.left + k }

def Shared.Result.extend (r : Shared.Result) (k : Nat) : Shared.Result := (r.1, r.2.extend k)

def Shared.Result.IsFinal (r : Shared.Result) : Prop := r.1 ≠ .error .outOfSteps

theorem callWith_extend {runs runs' : Activation → Shared → Shared.Result} {k : Nat}
    (h : ∀ a s, (runs a s).IsFinal → runs' a (s.extend k) = (runs a s).extend k)
    (hf : (callWith m runs s callee args).IsFinal) :
    callWith m runs' (s.extend k) callee args = (callWith m runs s callee args).extend k := by
  unfold callWith at hf ⊢
  have hdepth : (s.extend k).depth = s.depth := rfl
  rw [hdepth]
  cases hi : invoke m s.depth callee args with
  | error e => rfl
  | ok a =>
    rw [hi] at hf
    have hr := h a { s with depth := s.depth + 1 } hf
    exact congrArg (fun r : Shared.Result => (r.1, { r.2 with depth := r.2.depth - 1 })) hr

theorem runNested_extend (k : Nat) (h : (runNested m cells n a s).IsFinal) :
    runNested m cells (n + k) a (s.extend k) = (runNested m cells n a s).extend k := by
  induction n generalizing a s with
  | zero => exact absurd rfl h
  | succ n ih =>
    obtain ⟨memory, left, depth⟩ := s
    cases left with
    | zero => exact absurd rfl h
    | succ left =>
      have hs : Shared.extend ⟨memory, left + 1, depth⟩ k = ⟨memory, left + k + 1, depth⟩ :=
        congrArg (Shared.mk memory · depth) (Nat.add_right_comm left 1 k)
      rw [hs, Nat.add_right_comm n 1 k]
      cases hr : request cells a memory with
      | finish outcome =>
        rw [runNested_finish hr, runNested_finish hr]
        rfl
      | goOn b memory' =>
        rw [runNested_goOn hr] at h ⊢
        rw [runNested_goOn hr]
        exact ih h
      | call b dest callee args =>
        rw [runNested_call hr] at h ⊢
        rw [runNested_call hr]
        have hcall : (callWith m (runNested m cells n) ⟨memory, left, depth⟩ callee args).IsFinal →
            callWith m (runNested m cells (n + k)) ⟨memory, left + k, depth⟩ callee args =
              (callWith m (runNested m cells n) ⟨memory, left, depth⟩ callee args).extend k :=
          callWith_extend fun a s => ih
        generalize callWith m (runNested m cells n) ⟨memory, left, depth⟩ callee args = r at h hcall ⊢
        obtain ⟨outcome, s⟩ := r
        cases outcome with
        | error e => exact congrArg (Shared.Result.resume m cells (n + k) ⟨b, dest⟩) (hcall h)
        | ok v =>
          have hok : Shared.Result.IsFinal (.ok v, s) := fun hv => by cases hv
          exact (congrArg (Shared.Result.resume m cells (n + k) ⟨b, dest⟩) (hcall hok)).trans (ih h)

theorem run_eq_deliver (hn : s.left ≤ n) (hd : s.depth = callers.length + 1) :
    run m cells s.left ⟨a, callers, s.memory⟩ =
      (runNested m cells n a s).deliver m cells callers := by
  obtain ⟨memory, left, depth⟩ := s
  induction n generalizing a memory left depth callers with
  | zero =>
    cases Nat.le_zero.mp hn
    rfl
  | succ n ih =>
    cases left with
    | zero => rfl
    | succ left =>
      have hn : left ≤ n := Nat.le_of_succ_le_succ hn
      simp only [run, step_eq]
      cases hr : request cells a memory with
      | finish outcome =>
        rw [runNested_finish hr]
        cases outcome with
        | error e => rfl
        | ok v => cases callers <;> rfl
      | goOn b memory' =>
        rw [runNested_goOn hr]
        exact ih memory' left depth hn hd
      | call b dest callee args =>
        rw [runNested_call hr, callWith, Request.answer, ← hd]
        cases invoke m depth callee args with
        | error e => rfl
        | ok b' =>
          have hcall : run m cells left ⟨b', ⟨b, dest⟩ :: callers, memory⟩ =
              (runNested m cells n b' ⟨memory, left, depth + 1⟩).deliver m cells
                (⟨b, dest⟩ :: callers) :=
            ih memory left (depth + 1) hn (congrArg Nat.succ hd)
          obtain ⟨hdepth, hleft⟩ : (runNested m cells n b' ⟨memory, left, depth + 1⟩).Keeps
              ⟨memory, left, depth + 1⟩ := runNested_keeps n b' _
          refine hcall.trans ?_
          dsimp only
          generalize runNested m cells n b' ⟨memory, left, depth + 1⟩ = r at hdepth hleft ⊢
          obtain ⟨outcome, memory', left', depth'⟩ := r
          cases outcome with
          | error e => rfl
          | ok v =>
            have hdepth' : depth' - 1 = callers.length + 1 := by
              rw [show depth' = depth + 1 from hdepth, ← hd]
              rfl
            exact ih memory' left' (depth' - 1) (Nat.le_trans hleft hn) hdepth'

end

/-- Calls keep to their budget and come back to the depth at which they began, with a result or with a
fault. Any call that does not use up its budget comes to the same and takes as many steps under a
larger one. The machine runs it in this way with any callers on its stack, and so without any. -/
theorem call_disciplined (m : Module) (cells : Table GlobalId Nat) (s : Shared) (callee : FuncId)
    (args : List Value) :
    (s.depth = 0 → call ⟨m, cells, s.memory, s.left⟩ callee args =
      (⟨m, cells, (callNested m cells s callee args).2.memory,
        (callNested m cells s callee args).2.left⟩, (callNested m cells s callee args).1)) ∧
    (∀ callers a, callers.length = s.depth → invoke m s.depth callee args = .ok a →
      run m cells s.left ⟨a, callers, s.memory⟩ =
        (callNested m cells s callee args).deliver m cells callers) ∧
    (callNested m cells s callee args).2.depth = s.depth ∧
    (callNested m cells s callee args).2.left ≤ s.left ∧
    ((callNested m cells s callee args).1 ≠ .error .outOfSteps → ∀ k,
      callNested m cells { s with left := s.left + k } callee args =
        ((callNested m cells s callee args).1,
          { (callNested m cells s callee args).2 with
            left := (callNested m cells s callee args).2.left + k })) := by
  obtain ⟨hdepth, hleft⟩ : (callNested m cells s callee args).Keeps s :=
    callWith_keeps (runNested_keeps s.left)
  have hrun : ∀ callers a, callers.length = s.depth → invoke m s.depth callee args = .ok a →
      run m cells s.left ⟨a, callers, s.memory⟩ =
        (callNested m cells s callee args).deliver m cells callers := by
    intro callers a hc hi
    rw [callNested, callWith, hi]
    exact run_eq_deliver (s := { s with depth := s.depth + 1 }) (Nat.le_refl _)
      (congrArg Nat.succ hc.symm)
  refine ⟨fun hzero => ?_, hrun, hdepth, hleft, fun hf k => ?_⟩
  · cases hi : invoke m s.depth callee args with
    | error e =>
      rw [callNested, callWith, hi]
      rw [hzero] at hi
      rw [call, hi]
    | ok a =>
      have hr := hrun [] a hzero.symm hi
      rw [hzero] at hi
      rw [call, hi]
      simp only [hr]
      generalize callNested m cells s callee args = r
      obtain ⟨outcome, t⟩ := r
      cases outcome <;> rfl
  · exact callWith_extend (fun a t => runNested_extend k) hf

def countdown : Module :=
  { Module.create "countdown" with
    functions := .ofList [(⟨0⟩, { Function.create ⟨0⟩ "countdown" [("n", .i64)] .i64 with
      graph := ⟨.ofList [
        (⟨0⟩, ⟨⟨0⟩, none, [], [], .plain ⟨0⟩ (.condBranch (.reg ⟨0⟩) ⟨1⟩ ⟨2⟩)⟩),
        (⟨1⟩, ⟨⟨1⟩, none, [], [.plain ⟨1⟩ (.binary ⟨1⟩ .sub (.reg ⟨0⟩) (.const (.i64 1))),
            .plain ⟨2⟩ (.call (some ⟨2⟩) ⟨0⟩ [.reg ⟨1⟩])],
          .plain ⟨3⟩ (.ret (some (.reg ⟨2⟩)))⟩),
        (⟨2⟩, ⟨⟨2⟩, none, [], [], .plain ⟨4⟩ (.ret (some (.const (.i64 7))))⟩)], ⟨0⟩, 3, 5⟩ })]
    nextFunction := 1 }

/-- Two rounds take ten steps, at any depth that leaves room for them. With one step less they fail,
at the depth at which they began. -/
theorem countdown_disciplined :
    (∀ k, callNested countdown .empty ⟨#[], 10 + k, 200⟩ ⟨0⟩ [.i64 2] =
      (.ok (some (.i64 7)), ⟨#[], 0 + k, 200⟩)) ∧
    (callNested countdown .empty ⟨#[], 9, 200⟩ ⟨0⟩ [.i64 2]).2.depth = 200 := by
  have hten : callNested countdown .empty ⟨#[], 10, 200⟩ ⟨0⟩ [.i64 2] =
      (.ok (some (.i64 7)), ⟨#[], 0, 200⟩) := by rfl
  obtain ⟨-, -, -, -, hmore⟩ := call_disciplined countdown .empty ⟨#[], 10, 200⟩ ⟨0⟩ [.i64 2]
  obtain ⟨-, -, hdepth, -⟩ := call_disciplined countdown .empty ⟨#[], 9, 200⟩ ⟨0⟩ [.i64 2]
  rw [hten] at hmore
  exact ⟨hmore (by simp), hdepth⟩

end SiteFusion.Machine
