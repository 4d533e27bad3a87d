import SiteFusion.Proofs.Behaviour
import SiteFusion.Proofs.Tables

namespace SiteFusion

open List Option

namespace Machine

theorem toOption_bind {α β : Type} (x : Except Fault α) (f : α → Except Fault β) :
    (x >>= f).toOption = x.toOption >>= fun a => (f a).toOption := by
  cases x <;> rfl

theorem map_toOption_bind {α β γ : Type} (g : β → γ) (x : Except Fault α) (f : α → Except Fault β) :
    (x >>= f).toOption.map g = x.toOption.bind fun a => (f a).toOption.map g := by
  cases x <;> rfl

theorem eq_ok_of_toOption {α : Type} {x : Except Fault α} {a : α} (h : x.toOption = some a) :
    x = .ok a := by
  cases x with
  | error e => cases h
  | ok b => exact congrArg Except.ok (Option.some.inj h)

theorem operand_toOption (a : Activation) (o : Operand) :
    (a.operand o).toOption = Regs.value a.registers.get? o := by
  cases o with
  | const c => rfl
  | reg r =>
    simp only [Activation.operand, Activation.get, Regs.value]
    cases a.registers.get? r <;> rfl

theorem operands_toOption (a : Activation) (os : List Operand) :
    (a.operands os).toOption = os.mapM (Regs.value a.registers.get?) := by
  induction os with
  | nil => rfl
  | cons o os ih =>
    rw [Activation.operands, mapM_cons, toOption_bind, operand_toOption]
    simp only [toOption_bind, ih]
    rfl

/-- What an effect comes to, whatever register it defines. -/
def Effect.outcome (memory : Array Value) : Effect → Outcome
  | .define _ v => .plain (some v) memory
  | .allocate _ v => .plain (some (.ptr memory.size)) (memory.push v)
  | .write c v => .plain none (memory.setIfInBounds c v)
  | .call _ callee args => .call callee args
  | .nothing => .plain none memory

def Effect.dest? : Effect → Option Reg
  | .define d _ | .allocate d _ => some d
  | .call d _ _ => d
  | .write _ _ | .nothing => none

variable {cells : Table GlobalId Nat} {a : Activation} {memory : Array Value} {i : Instruction}

theorem globalCell_toOption (cells : Table GlobalId Nat) (g : GlobalId) :
    (globalCell cells g).toOption = cells.get? g := by
  unfold globalCell
  cases cells.get? g <;> rfl

theorem effect_toOption (cells : Table GlobalId Nat) (a : Activation) (memory : Array Value)
    (i : Instruction) :
    (effect cells a memory i).toOption.map (Effect.outcome memory) =
      act cells a.registers.get? memory i := by
  cases i with
  | select d c x y =>
    simp only [effect, act, map_toOption_bind, operand_toOption, bind_eq_bind]
    refine Option.bind_congr fun v _ => ?_
    cases hv : v.truth? with
    | none => rfl
    | some b =>
      simp only [map_toOption_bind, operand_toOption, bind_some]
      rfl
  | callIndirect d t args =>
    simp only [effect, act, map_toOption_bind, operand_toOption, bind_eq_bind]
    refine Option.bind_congr fun v _ => ?_
    cases v with
    | func f =>
      simp only [map_toOption_bind, operands_toOption]
      rfl
    | _ => rfl
  | _ =>
    simp only [effect, act, map_toOption_bind, operand_toOption, operands_toOption,
      globalCell_toOption, bind_eq_bind]
    rfl

theorem dest?_of_effect {e : Effect} (h : effect cells a memory i = .ok e) : e.dest? = i.dest? := by
  have hb : ∀ {α : Type} {x : Except Fault α} {f : α → Except Fault Effect},
      x >>= f = .ok e → ∃ y, f y = .ok e := by
    intro α x f hx
    cases x with
    | error e => cases hx
    | ok y => exact ⟨y, hx⟩
  cases i with
  | select d c x y =>
    obtain ⟨v, h⟩ := hb h
    cases hv : v.truth? with
    | none => rw [hv] at h; cases h
    | some b =>
      rw [hv] at h
      obtain ⟨v, h⟩ := hb h
      cases h
      rfl
  | callIndirect d t args =>
    obtain ⟨v, h⟩ := hb h
    cases v with
    | func f =>
      obtain ⟨v, h⟩ := hb h
      cases h
      rfl
    | _ => cases h
  | const | alloca | functionRef | marker => cases h; rfl
  | inlineAsm => cases h
  | copy | loadGlobal | call =>
    obtain ⟨_, h⟩ := hb h
    cases h
    rfl
  | unary | load | storeGlobal =>
    obtain ⟨_, h⟩ := hb h
    obtain ⟨_, h⟩ := hb h
    cases h
    rfl
  | binary | compare | store =>
    obtain ⟨_, h⟩ := hb h
    obtain ⟨_, h⟩ := hb h
    obtain ⟨_, h⟩ := hb h
    cases h
    rfl

theorem get?_resume (a : Activation) (d : Option Reg) (v : Option Value) :
    (resume ⟨a, d⟩ v).registers.get? = Regs.put a.registers.get? d v := by
  cases d with
  | none => rfl
  | some d =>
    funext r
    simp [resume, Activation.set, Regs.put]

theorem stepInstruction_plain {m : Module} {callers : List Caller} {v : Option Value}
    {memory' : Array Value}
    (h : act cells a.registers.get? memory i = some (.plain v memory')) :
    stepInstruction m cells a callers memory i =
      .running ⟨resume ⟨a, i.dest?⟩ v, callers, memory'⟩ := by
  rw [← effect_toOption, map_eq_some_iff] at h
  obtain ⟨e, he, ho⟩ := h
  have he := eq_ok_of_toOption he
  have hd := dest?_of_effect he
  rw [stepInstruction, he, ← hd]
  cases e <;> cases ho <;> rfl

theorem stepInstruction_call {m : Module} {callers : List Caller} {callee : FuncId}
    {args : List Value} (h : act cells a.registers.get? memory i = some (.call callee args)) :
    stepInstruction m cells a callers memory i =
      match invoke m (callers.length + 1) callee args with
      | .error e => .halted (.error e) memory
      | .ok b => .running ⟨b, ⟨a, i.dest?⟩ :: callers, memory⟩ := by
  rw [← effect_toOption, map_eq_some_iff] at h
  obtain ⟨e, he, ho⟩ := h
  have he := eq_ok_of_toOption he
  have hd := dest?_of_effect he
  rw [stepInstruction, he, ← hd]
  cases e <;> cases ho
  rfl

theorem stepInstruction_none {m : Module} {callers : List Caller}
    (h : act cells a.registers.get? memory i = none) :
    ∃ e, stepInstruction m cells a callers memory i = .halted (.error e) memory := by
  rw [← effect_toOption, map_eq_none_iff] at h
  rw [stepInstruction]
  cases he : effect cells a memory i with
  | error e => exact ⟨e, rfl⟩
  | ok e => rw [he] at h; cases h

theorem leave_toOption (a : Activation) (t : Terminator) :
    (leave a t).toOption = leads a.registers.get? t := by
  cases t with
  | branch t => rfl
  | condBranch c t e =>
    simp only [leave, leads, toOption_bind, operand_toOption, bind_eq_bind]
    refine Option.bind_congr fun v _ => ?_
    cases hv : v.truth? <;> rfl
  | switch v cs d =>
    simp only [leave, leads, toOption_bind, operand_toOption, bind_eq_bind]
    refine Option.bind_congr fun v _ => ?_
    cases hv : v.integer? <;> rfl
  | ret v =>
    cases v with
    | none => rfl
    | some v =>
      simp only [leave, leads, toOption_bind, operand_toOption, bind_eq_bind]
      rfl
  | unreachable => rfl

theorem get?_bind (ps : List Param) (vs : List Value) (registers : Registers) :
    (bind ps vs registers).get? = Regs.bind (ps.map Param.reg) vs registers.get? := by
  induction ps generalizing vs registers with
  | nil => rfl
  | cons p ps ih =>
    cases vs with
    | nil => rfl
    | cons v vs =>
      rw [bind, ih, map_cons, Regs.bind]
      congr 1
      funext r
      simp [Regs.put]

theorem get?_writeAll (ds : List Reg) (vs : List Value) (registers : Registers) :
    (writeAll (ds.zip vs) registers).get? = Regs.bind ds vs registers.get? := by
  induction ds generalizing vs registers with
  | nil => rfl
  | cons d ds ih =>
    cases vs with
    | nil => rfl
    | cons v vs =>
      rw [zip_cons_cons, writeAll, ih, Regs.bind]
      congr 1
      funext r
      simp [Regs.put]

end Machine

/-- An activation that is past its phis shows as a frame of the program. -/
structure Machine.Activation.Shows (m : Module) (a : Machine.Activation) (f : FuncId)
    (fr : Frame) : Prop where
  function : m.function? f = some a.function
  body : a.function.isDeclaration = false
  label : a.label = fr.label
  task : ∃ ops : List (Operation Instruction),
    a.task = .body ops fr.exit ∧ ops.map Operation.kind = fr.rest
  regs : a.registers.get? = fr.regs

namespace Machine

variable {m : Module} {cells : Table GlobalId Nat} {a : Activation} {args : List Value} {b : Block}
  {c : Config} {callers : List Caller} {depth : Nat} {f : FuncId} {fr : Frame} {l source : BlockId}
  {memory : Array Value} {phi : Phi} {registers : Registers} {rest : List (Operation Phi)}
  {s : State} {v : Option Value}

/-- The machine stands as the program does. -/
structure State.Shows (m : Module) (s : State) (c : Config) : Prop where
  current : s.current.Shows m c.function c.frame
  callers : List.Forall₂ (fun (k : Caller) (w : Waiting) =>
    k.activation.Shows m w.function w.frame ∧ k.dest = w.dest) s.callers c.callers
  memory : s.memory = c.memory

theorem Activation.Shows.resume (h : a.Shows m f fr) (d : Option Reg) (v : Option Value) :
    (Machine.resume ⟨a, d⟩ v).Shows m f (fr.resume d v) := by
  have hr : (Machine.resume ⟨a, d⟩ v).registers.get? = fr.regs.put d v := by
    rw [get?_resume, h.regs]
  cases d with
  | none => exact ⟨h.function, h.body, h.label, h.task, hr⟩
  | some d => exact ⟨h.function, h.body, h.label, h.task, hr⟩

theorem invoke_eq_ok (h : invoke m depth f args = .ok a) :
    ∃ p fr, m.program f = some p ∧ p.accepts args.length ∧ depth < depthLimit ∧
      p.start args = some fr ∧ a.Shows m f fr := by
  unfold invoke at h
  split at h
  · cases h
  · next g hg =>
    split at h
    · cases h
    · next hd =>
      have hd : g.isDeclaration = false := by simpa using hd
      dsimp only at h
      split at h
      · cases h
      · next hn =>
        split at h
        · cases h
        · next hlim =>
          unfold enter at h
          split at h
          · cases h
          · next b hb =>
            split at h
            · next hp =>
              cases h
              refine ⟨g.proc, ⟨g.graph.entry, b.instructions.map Operation.kind,
                b.terminator.kind, (bind g.signature.params args .empty).get?⟩, ?_, ?_, by omega, ?_,
                ⟨hg, hd, rfl, ⟨_, rfl, rfl⟩, rfl⟩⟩
              · rw [Module.program, hg]
                simp [hd]
              · rw [not_and_or, not_not, not_not] at hn
                rcases hn with hn | hn
                · exact .inl (by simp [Function.proc, hn])
                · exact .inr (by simpa [Function.proc] using hn)
              · rw [get?_bind]
                simp [Proc.start, Function.proc, hb, Block.code, hp]
                rfl
            · cases h
            · next hs => cases hs

theorem invoke_of_start {p : Proc} (hp : m.program f = some p) (hn : p.accepts args.length)
    (hd : depth < depthLimit) (hs : p.start args = some fr) :
    ∃ a, invoke m depth f args = .ok a ∧ a.Shows m f fr := by
  unfold Module.program at hp
  split at hp
  · cases hp
  · next g hg =>
    split at hp
    · cases hp
    · next hdecl =>
      have hdecl : g.isDeclaration = false := by simpa using hdecl
      cases hp
      obtain ⟨b, hb, hphis, rfl⟩ : ∃ b, g.graph.block? g.graph.entry = some b ∧ b.phis = [] ∧
          fr = ⟨g.graph.entry, b.instructions.map Operation.kind, b.terminator.kind,
            Regs.bind (g.signature.params.map Param.reg) args fun _ => none⟩ := by
        unfold Proc.start at hs
        simp only [Function.proc] at hs
        cases hb : g.graph.block? g.graph.entry with
        | none => rw [hb] at hs; cases hs
        | some b =>
          rw [hb] at hs
          simp only [map_some] at hs
          split at hs
          · next hp =>
            refine ⟨b, rfl, by simpa [Block.code] using hp, ?_⟩
            exact (Option.some.inj hs).symm
          · cases hs
      refine ⟨⟨g, g.graph.entry, .body b.instructions b.terminator.kind,
        bind g.signature.params args .empty⟩, ?_, ⟨hg, hdecl, rfl, ⟨_, rfl, rfl⟩, ?_⟩⟩
      · have hcount : ¬ (args.length ≠ g.signature.params.length ∧
            ¬ (g.signature.varargs ∧ g.signature.params.length < args.length)) := by
          rintro ⟨h₁, h₂⟩
          rcases hn with hn | hn
          · exact h₁ (by simpa [Function.proc] using hn)
          · exact h₂ (by simpa [Function.proc] using hn)
        unfold invoke
        simp only [hg, hdecl, Bool.false_eq_true, ↓reduceIte, hcount, enter, hb, hphis]
        rw [if_neg (by omega)]
      · rw [get?_bind]
        rfl

/-- A number of steps, none of which ends the run. -/
inductive Steps (m : Module) (cells : Table GlobalId Nat) : State → Nat → State → Prop
  | refl (s : State) : Steps m cells s 0 s
  | head {s s' t : State} {n : Nat} (h : step m cells s = .running s')
      (hs : Steps m cells s' n t) : Steps m cells s (n + 1) t

namespace Steps

variable {s s' t : State} {k n : Nat}

theorem one (h : step m cells s = .running s') : Steps m cells s 1 s' := .head h (.refl s')

theorem trans (h : Steps m cells s k s') (h' : Steps m cells s' n t) :
    Steps m cells s (n + k) t := by
  induction h with
  | refl s => exact h'
  | head hs _ ih => exact .head hs (ih h')

theorem run_eq (h : Steps m cells s k t) (n : Nat) : run m cells (n + k) s = run m cells n t := by
  induction h with
  | refl s => rfl
  | head hs _ ih =>
    rw [← Nat.add_assoc, run, hs]
    exact ih

end Steps

theorem stepPhi_cons (p : Operation Phi) (rest : List (Operation Phi)) (read : List (Reg × Value))
    (b : Block) {v : Value}
    (hv : (phi.incomingFor source).bind (Regs.value a.registers.get?) = some v) :
    stepPhi a source phi (p :: rest) read b =
      .ok { a with task := .phis source p.kind rest (read ++ [(phi.dest, v)]) b } := by
  obtain ⟨o, ho, hv⟩ := bind_eq_some_iff.mp hv
  rw [← operand_toOption] at hv
  rw [stepPhi, ho]
  simp only [eq_ok_of_toOption hv]
  rfl

theorem stepPhi_nil (read : List (Reg × Value)) (b : Block) {v : Value}
    (hv : (phi.incomingFor source).bind (Regs.value a.registers.get?) = some v) :
    stepPhi a source phi [] read b =
      .ok { a with
        task := .body b.instructions b.terminator.kind
        registers := writeAll (read ++ [(phi.dest, v)]) a.registers } := by
  obtain ⟨o, ho, hv⟩ := bind_eq_some_iff.mp hv
  rw [← operand_toOption] at hv
  rw [stepPhi, ho]
  simp only [eq_ok_of_toOption hv]
  rfl

theorem stepPhi_none (rest : List (Operation Phi)) (read : List (Reg × Value)) (b : Block)
    (hv : (phi.incomingFor source).bind (Regs.value a.registers.get?) = none) :
    ∃ e, stepPhi a source phi rest read b = .error e := by
  rw [stepPhi]
  cases ho : phi.incomingFor source with
  | none => exact ⟨_, rfl⟩
  | some o =>
    rw [ho, bind_some, ← operand_toOption] at hv
    cases hx : a.operand o with
    | error e => exact ⟨e, by simp only [hx]; rfl⟩
    | ok v => rw [hx] at hv; cases hv

/-- The phis of a block take one step each, and then their values are written. -/
theorem steps_phis {f : Function} {vs : List Value}
    (hvs : incomings registers.get? source (phi :: rest.map Operation.kind) = some vs)
    (read : List (Reg × Value)) :
    Steps m cells ⟨⟨f, l, .phis source phi rest read b, registers⟩, callers, memory⟩
      (rest.length + 1) ⟨⟨f, l, .body b.instructions b.terminator.kind,
        writeAll (read ++ ((phi :: rest.map Operation.kind).map Phi.dest).zip vs) registers⟩,
        callers, memory⟩ := by
  obtain ⟨v, ws, hv, hws, rfl⟩ := incomings_cons.mp hvs
  clear hvs
  induction rest generalizing phi read v ws with
  | nil =>
    have hnil : ws = [] := by simpa [incomings] using hws.symm
    have hs := stepPhi_nil read b (a := ⟨f, l, .phis source phi [] read b, registers⟩) hv
    refine .one ?_
    simp only [step, hs, hnil]
    rfl
  | cons p rest ih =>
    obtain ⟨v', ws', hv', hws', rfl⟩ := incomings_cons.mp hws
    have hs := stepPhi_cons p rest read b
      (a := ⟨f, l, .phis source phi (p :: rest) read b, registers⟩) hv
    have hstep : step m cells
        ⟨⟨f, l, .phis source phi (p :: rest) read b, registers⟩, callers, memory⟩ =
        .running ⟨⟨f, l, .phis source p.kind rest (read ++ [(phi.dest, v)]) b, registers⟩, callers,
          memory⟩ := by
      simp only [step, hs]
    refine .head hstep ?_
    simpa using ih (read ++ [(phi.dest, v)]) _ _ hv' hws'

theorem incomings_of_run {f : Function} {read : List (Reg × Value)} {n : Nat} (h : (run m cells n
      ⟨⟨f, l, .phis source phi rest read b, registers⟩, callers, memory⟩).outcome = .ok v) :
    ∃ vs n', incomings registers.get? source (phi :: rest.map Operation.kind) = some vs ∧
      n = n' + (rest.length + 1) := by
  induction rest generalizing phi read n with
  | nil =>
    cases n with
    | zero => cases h
    | succ n =>
      rw [run, step] at h
      cases hv : (phi.incomingFor source).bind (Regs.value registers.get?) with
      | none =>
        obtain ⟨e, he⟩ := stepPhi_none [] read b
          (a := ⟨f, l, .phis source phi [] read b, registers⟩) hv
        simp only [he] at h
        cases h
      | some w => exact ⟨[w], n, incomings_cons.mpr ⟨w, [], hv, rfl, rfl⟩, rfl⟩
  | cons p rest ih =>
    cases n with
    | zero => cases h
    | succ n =>
      rw [run, step] at h
      cases hv : (phi.incomingFor source).bind (Regs.value registers.get?) with
      | none =>
        obtain ⟨e, he⟩ := stepPhi_none (p :: rest) read b
          (a := ⟨f, l, .phis source phi (p :: rest) read b, registers⟩) hv
        simp only [he] at h
        cases h
      | some w =>
        have hs := stepPhi_cons p rest read b
          (a := ⟨f, l, .phis source phi (p :: rest) read b, registers⟩) hv
        simp only [hs] at h
        obtain ⟨ws, n', hws, rfl⟩ := ih h
        refine ⟨w :: ws, n', incomings_cons.mpr ⟨w, ws, hv, hws, rfl⟩, ?_⟩
        rw [length_cons]
        omega

theorem incomings_of_enter {f : Function} {label : BlockId} {n : Nat}
    (he : enter f registers (some source) label = .ok a)
    (h : (run m cells n ⟨a, callers, memory⟩).outcome = .ok v) :
    ∃ c vs n', f.proc.code label = some c ∧ incomings registers.get? source c.phis = some vs ∧
      n = n' + c.phis.length := by
  unfold enter at he
  split at he
  · cases he
  · next b hb =>
    have hc : f.proc.code label = some b.code := by simp [Function.proc, hb]
    split at he
    · next hp => exact ⟨b.code, [], n, hc, by simp [Block.code, hp, incomings],
        by simp [Block.code, hp]⟩
    · cases he
    · next p ps s hp hs =>
      cases hs
      cases he
      obtain ⟨vs, n', hvs, hn⟩ := incomings_of_run h
      exact ⟨b.code, vs, n', hc, by simpa [Block.code, hp] using hvs,
        by simpa [Block.code, hp] using hn⟩

theorem enter_of_incomings {id : FuncId} {f : Function} {registers : Registers}
    {source label : BlockId} {c : Code} {vs : List Value} (callers : List Caller)
    (memory : Array Value) (hf : m.function? id = some f) (hd : f.isDeclaration = false)
    (hc : f.proc.code label = some c) (hvs : incomings registers.get? source c.phis = some vs) :
    ∃ a a', enter f registers (some source) label = .ok a ∧
      a'.Shows m id ⟨label, c.body, c.exit, Regs.bind (c.phis.map Phi.dest) vs registers.get?⟩ ∧
      Steps m cells ⟨a, callers, memory⟩ c.phis.length ⟨a', callers, memory⟩ := by
  obtain ⟨b, hb, rfl⟩ := map_eq_some_iff.mp hc
  cases hp : b.phis with
  | nil =>
    have hnil : b.code.phis = [] := by simp [Block.code, hp]
    refine ⟨⟨f, label, .body b.instructions b.terminator.kind, registers⟩,
      ⟨f, label, .body b.instructions b.terminator.kind, registers⟩,
      by simp [enter, hb, hp], ⟨hf, hd, rfl, ⟨_, rfl, rfl⟩, ?_⟩, ?_⟩
    · simp [hnil, Regs.bind]
    · simpa [hnil] using Steps.refl _
  | cons p ps =>
    have hphis : b.code.phis = p.kind :: ps.map Operation.kind := by simp [Block.code, hp]
    rw [hphis] at hvs ⊢
    refine ⟨⟨f, label, .phis source p.kind ps [] b, registers⟩, ⟨f, label,
      .body b.instructions b.terminator.kind, writeAll (((p.kind :: ps.map Operation.kind).map
        Phi.dest).zip vs) registers⟩, by simp [enter, hb, hp],
      ⟨hf, hd, rfl, ⟨_, rfl, rfl⟩, get?_writeAll _ _ _⟩, ?_⟩
    simpa using steps_phis hvs []

theorem runs_of_run {n : Nat} (hs : s.Shows m c) (h : (run m cells n s).outcome = .ok v) :
    ∃ k c', Runs cells m.program c k c' ∧ Ends c' v (run m cells n s).memory ∧
      n = k + 1 + (run m cells n s).left := by
  induction n using Nat.strongRecOn generalizing s c with
  | _ n ih =>
  obtain ⟨⟨g, lab, task, registers⟩, callers, memory⟩ := s
  obtain ⟨f, ⟨l, rest, t, ρ⟩, waiting, memory'⟩ := c
  obtain ⟨⟨hfun, hbody, hlab, ⟨ops, htask, hrest⟩, hregs⟩, hcallers, hmem⟩ := hs
  simp only at hfun hbody hlab htask hrest hregs hmem hcallers
  subst hlab htask hmem hregs
  -- the rest of the run is one of the program, and takes as many steps less as the move before it
  have hrun : ∀ {s' c' k n'}, Steps m cells ⟨⟨g, lab, .body ops t, registers⟩, callers, memory⟩ k s' →
      n = n' + k → 0 < k → s'.Shows m c' →
      Moves cells m.program ⟨f, ⟨lab, rest, t, registers.get?⟩, waiting, memory⟩ k c' →
      ∃ k c', Runs cells m.program ⟨f, ⟨lab, rest, t, registers.get?⟩, waiting, memory⟩ k c' ∧
        Ends c' v (run m cells n
          ⟨⟨g, lab, .body ops t, registers⟩, callers, memory⟩).memory ∧
        n = k + 1 + (run m cells n
          ⟨⟨g, lab, .body ops t, registers⟩, callers, memory⟩).left := by
    rintro s' c' k n' hsteps rfl hk hs' hmove
    rw [hsteps.run_eq] at h ⊢
    obtain ⟨j, d, hruns, hends, hj⟩ := ih n' (by omega) hs' h
    exact ⟨j + k, d, .head hmove hruns, hends, by omega⟩
  cases n with
  | zero => cases h
  | succ n =>
    have hshow : ∀ {ops'}, Activation.Shows m ⟨g, lab, .body ops' t, registers⟩ f
        ⟨lab, ops'.map Operation.kind, t, registers.get?⟩ :=
      ⟨hfun, hbody, rfl, ⟨_, rfl, rfl⟩, rfl⟩
    cases ops with
    | cons o ops =>
      subst hrest
      cases hact : SiteFusion.act cells registers.get? memory o.kind with
      | none =>
        obtain ⟨e, he⟩ := @stepInstruction_none cells ⟨g, lab, .body ops t, registers⟩ memory o.kind
          m callers hact
        simp only [run, step, he] at h
        cases h
      | some out =>
        cases out with
        | plain w memory' =>
          have hstep : step m cells
              ⟨⟨g, lab, .body (o :: ops) t, registers⟩, callers, memory⟩ = .running _ :=
            @stepInstruction_plain cells ⟨g, lab, .body ops t, registers⟩ memory o.kind m callers w
              memory' hact
          exact hrun (.one hstep) rfl Nat.one_pos
            ⟨hshow.resume o.kind.dest? w, hcallers, rfl⟩ (.act hact)
        | call callee args =>
          have hstep := @stepInstruction_call cells ⟨g, lab, .body ops t, registers⟩ memory o.kind
            m callers callee args hact
          cases hinv : invoke m (callers.length + 1) callee args with
          | error e =>
            simp only [run, step, hstep, hinv] at h
            cases h
          | ok b =>
            obtain ⟨q, fr, hq, hn, hd, hst, hb⟩ := invoke_eq_ok hinv
            have hstep : step m cells ⟨⟨g, lab, .body (o :: ops) t, registers⟩, callers, memory⟩ =
                .running ⟨b, ⟨⟨g, lab, .body ops t, registers⟩, o.kind.dest?⟩ :: callers,
                  memory⟩ := by
              simp only [step, hstep, hinv]
            exact hrun (.one hstep) rfl Nat.one_pos ⟨hb, .cons ⟨hshow, rfl⟩ hcallers, rfl⟩
              (.call hact hq hn (hcallers.length_eq ▸ hd) hst)
    | nil =>
      subst hrest
      cases hl : leave ⟨g, lab, .body [] t, registers⟩ t with
      | error e =>
        simp only [run, step, stepTerminator, hl] at h
        cases h
      | ok e =>
        have hlead : leads registers.get? t = some e := by
          rw [← leave_toOption ⟨g, lab, .body [] t, registers⟩, hl]
          rfl
        cases e with
        | goto target =>
          cases he : enter g registers (some lab) target with
          | error e =>
            simp only [run, step, stepTerminator, hl, he] at h
            cases h
          | ok a =>
            have hstep : step m cells ⟨⟨g, lab, .body [] t, registers⟩, callers, memory⟩ =
                .running ⟨a, callers, memory⟩ := by
              simp only [step, stepTerminator, hl, he]
            have hr := (Steps.one hstep).run_eq n
            obtain ⟨c, vs, n', hc, hvs, rfl⟩ := incomings_of_enter he (hr ▸ h)
            obtain ⟨a₁, a', he', ha', hsteps⟩ :=
              @enter_of_incomings m cells _ _ _ _ _ _ _ callers memory hfun hbody hc hvs
            obtain rfl : a = a₁ := Except.ok.inj (he.symm.trans he')
            have hp : m.program f = some g.proc := by rw [Module.program, hfun]; simp [hbody]
            exact hrun (.head hstep hsteps) (Nat.add_assoc n' _ 1) (Nat.succ_pos _)
              ⟨ha', hcallers, rfl⟩ (.goto hp hlead hc hvs)
        | back r =>
          cases hcallers with
          | nil =>
            simp only [run, step, stepTerminator, hl] at h ⊢
            cases h
            exact ⟨0, _, .refl _, .intro hlead, by omega⟩
          | @cons k w callers waiting hk hrest =>
            have hstep : step m cells ⟨⟨g, lab, .body [] t, registers⟩, k :: callers, memory⟩ =
                .running ⟨Machine.resume k r, callers, memory⟩ := by
              simp only [step, stepTerminator, hl]
            exact hrun (.one hstep) rfl Nat.one_pos
              ⟨by rw [← hk.2]; exact hk.1.resume k.dest r, hrest, rfl⟩ (.back hlead)

theorem steps_of_moves {c' : Config} {k : Nat} (hs : s.Shows m c) (h : Moves cells m.program c k c') :
    ∃ s', s'.Shows m c' ∧ Steps m cells s k s' := by
  obtain ⟨⟨g, lab, task, registers⟩, callers, memory⟩ := s
  obtain ⟨f, ⟨l, r, t, ρ⟩, waiting, memory'⟩ := c
  obtain ⟨⟨hfun, hbody, hlab, ⟨ops, htask, hrest⟩, hregs⟩, hcallers, hmem⟩ := hs
  simp only at hfun hbody hlab htask hrest hregs hmem hcallers
  subst hlab htask hregs hmem
  cases h with
  | @act _ _ i rest _ _ _ _ v memory' hact =>
    obtain ⟨o, ops, rfl, rfl, rfl⟩ := map_eq_cons_iff.mp hrest
    have hshow : Activation.Shows m ⟨g, lab, .body ops t, registers⟩ f
        ⟨lab, ops.map Operation.kind, t, registers.get?⟩ :=
      ⟨hfun, hbody, rfl, ⟨ops, rfl, rfl⟩, rfl⟩
    have hstep := @stepInstruction_plain cells ⟨g, lab, .body ops t, registers⟩ memory o.kind
      m callers v memory' hact
    exact ⟨_, ⟨hshow.resume o.kind.dest? v, hcallers, rfl⟩, .one hstep⟩
  | @call _ _ i rest _ _ _ _ callee args q b hact hq hn hd hst =>
    obtain ⟨o, ops, rfl, rfl, rfl⟩ := map_eq_cons_iff.mp hrest
    rw [← hcallers.length_eq] at hd
    obtain ⟨a, ha, hshow⟩ := invoke_of_start hq hn hd hst
    have hstep := @stepInstruction_call cells ⟨g, lab, .body ops t, registers⟩ memory o.kind
      m callers callee args hact
    refine ⟨⟨a, ⟨⟨g, lab, .body ops t, registers⟩, o.kind.dest?⟩ :: callers, memory⟩,
      ⟨hshow, .cons ⟨⟨hfun, hbody, rfl, ⟨ops, rfl, rfl⟩, rfl⟩, rfl⟩ hcallers, rfl⟩, .one ?_⟩
    simp only [step, hstep, ha]
  | @goto _ p _ _ _ _ _ l' c vs hf hlead hc hvs =>
    have hp : m.program f = some g.proc := by rw [Module.program, hfun]; simp [hbody]
    obtain rfl : p = g.proc := Option.some.inj (hf.symm.trans hp)
    obtain rfl := map_eq_nil_iff.mp hrest
    obtain ⟨b, b', he, hshow, hsteps⟩ := enter_of_incomings callers memory hfun hbody hc hvs
    rw [← leave_toOption ⟨g, lab, .body [] t, registers⟩] at hlead
    refine ⟨⟨b', callers, memory⟩, ⟨hshow, hcallers, rfl⟩, .head ?_ hsteps⟩
    simp only [step, stepTerminator, eq_ok_of_toOption hlead, he]
  | @back _ _ _ _ v w waiting _ hlead =>
    obtain rfl := map_eq_nil_iff.mp hrest
    obtain ⟨k, callers, hk, hks, rfl⟩ := forall₂_cons_right_iff.mp hcallers
    rw [← leave_toOption ⟨g, lab, .body [] t, registers⟩] at hlead
    refine ⟨⟨Machine.resume k v, callers, memory⟩,
      ⟨by rw [← hk.2]; exact hk.1.resume k.dest v, hks, rfl⟩, .one ?_⟩
    simp only [step, stepTerminator, eq_ok_of_toOption hlead]

theorem steps_of_runs {s : State} {c c' : Config} {k : Nat} (hs : s.Shows m c)
    (h : Runs cells m.program c k c') : ∃ s', s'.Shows m c' ∧ Steps m cells s k s' := by
  induction h generalizing s with
  | refl c => exact ⟨s, hs, .refl s⟩
  | head hm _ ih =>
    obtain ⟨s₁, hs₁, h₁⟩ := steps_of_moves hs hm
    obtain ⟨s₂, hs₂, h₂⟩ := ih hs₁
    exact ⟨s₂, hs₂, h₁.trans h₂⟩

theorem step_of_ends (hs : s.Shows m c) (h : Ends c v memory) :
    step m cells s = .halted (.ok v) memory := by
  obtain ⟨⟨g, lab, task, registers⟩, callers, memory'⟩ := s
  obtain ⟨⟨hfun, hbody, hlab, ⟨ops, htask, hrest⟩, hregs⟩, hcallers, hmem⟩ := hs
  cases h with
  | @intro f l t ρ v memory hlead =>
    simp only at hlab htask hrest hregs hmem
    subst hlab htask hregs hmem
    obtain rfl := map_eq_nil_iff.mp hrest
    obtain rfl := forall₂_nil_right_iff.mp hcallers
    rw [← leave_toOption ⟨g, lab, .body [] t, registers⟩] at hlead
    simp only [step, stepTerminator, eq_ok_of_toOption hlead]

theorem exists_call_fst (machine : Machine) (f : FuncId) (args : List Value) :
    ∃ memory left, (machine.call f args).1 = ⟨machine.module, machine.cells, memory, left⟩ := by
  unfold call
  split
  · exact ⟨machine.memory, machine.budget, rfl⟩
  · exact ⟨_, _, rfl⟩

/-- A call has a result under a budget exactly if the program yields it in so many steps. -/
theorem call_eq_ok_iff {memory' : Array Value} {budget left : Nat} :
    call ⟨m, cells, memory, budget⟩ f args = (⟨m, cells, memory', left⟩, .ok v) ↔
      ∃ n, Yields cells m.program memory f args v memory' n ∧ budget = n + 1 + left := by
  constructor
  · intro h
    unfold call at h
    cases hinv : invoke m 0 f args with
    | error e => simp [hinv] at h
    | ok a =>
      obtain ⟨p, fr, hp, hn, -, hst, hshow⟩ := invoke_eq_ok hinv
      simp only [hinv, Prod.mk.injEq, Machine.mk.injEq, true_and] at h
      obtain ⟨⟨hm, hl⟩, ho⟩ := h
      obtain ⟨k, c, hrun, hend, hk⟩ := runs_of_run (c := ⟨f, fr, [], memory⟩) ⟨hshow, .nil, rfl⟩ ho
      exact ⟨k, ⟨p, fr, c, hp, hn, hst, hrun, hm ▸ hend⟩, hl ▸ hk⟩
  · rintro ⟨n, ⟨p, fr, c, hp, hn, hst, hrun, hend⟩, rfl⟩
    obtain ⟨a, ha, hshow⟩ := invoke_of_start hp hn (show 0 < depthLimit by decide) hst
    obtain ⟨s, hs, hsteps⟩ := @steps_of_runs m cells ⟨a, [], memory⟩ _ _ _ ⟨hshow, .nil, rfl⟩ hrun
    have hr : run m cells (n + 1 + left) ⟨a, [], memory⟩ = ⟨.ok v, memory', left⟩ := by
      rw [show n + 1 + left = left + 1 + n by omega, hsteps.run_eq, run, step_of_ends hs hend]
    simp only [call, ha, hr]

end Machine

end SiteFusion
