import SiteFusion.Proofs.ModuleDocuments
import SiteFusion.Proofs.Recodings
import SiteFusion.Proofs.Scopes
import SiteFusion.Proofs.SpilledFunctions

namespace SiteFusion

open List Option

/-- The registers of a piece of code, in the order in which they come up. -/
def Code.registers (c : Code) : List Reg :=
  (c.phis.flatMap fun q => q.dest :: q.uses) ++
    (c.body.flatMap fun i => i.uses ++ i.dest?.toList) ++ c.exit.uses

/-- The constants that a piece of code is made with. -/
def Code.constants (c : Code) : List Const :=
  c.phis.flatMap Phi.constants ++ c.body.flatMap Instruction.constants ++ c.exit.constants

theorem Block.constants_eq (b : Block) : b.constants = b.code.constants := by
  simp only [constants, code, Code.constants, flatMap_map]

/-- The blocks that a piece of code names. -/
def Code.labels (c : Code) : List BlockId :=
  (c.phis.flatMap fun q => q.incoming.map Prod.fst) ++ c.exit.successors

namespace Duplicates.Renaming

variable {n m : Renaming}

def code (n : Renaming) (c : Code) : Code :=
  ⟨c.phis.map n.phi, c.body.map n.instruction, n.terminator c.exit⟩

def comp (n m : Renaming) : Renaming := ⟨n.reg ∘ m.reg, n.label ∘ m.label⟩

theorem reg?_operand (o : Operand) : (n.operand o).reg? = o.reg?.map n.reg := by cases o <;> rfl

theorem operand_comp (o : Operand) : n.operand (m.operand o) = (n.comp m).operand o := by
  cases o <;> rfl

theorem operand_eq_self {o : Operand} (h : ∀ r ∈ o.reg?, n.reg r = r) : n.operand o = o := by
  cases o with
  | const c => rfl
  | reg r => exact congrArg Operand.reg (h r rfl)

theorem uses_phi (q : Phi) : (n.phi q).uses = q.uses.map n.reg := by
  simp [phi, Phi.uses, filterMap_map, map_filterMap, reg?_operand]

theorem operands_instruction (i : Instruction) :
    (n.instruction i).operands = i.operands.map n.operand := by
  cases i <;>
    simp [instruction, Instruction.mapOperands, Instruction.mapDest, Instruction.operands]

theorem operands_terminator (t : Terminator) :
    (n.terminator t).operands = t.operands.map n.operand := by
  rcases t with _ | _ | _ | (_ | _) | _ <;>
    simp [terminator, Terminator.mapOperands, Terminator.mapTargets, Terminator.operands]

theorem uses_instruction (i : Instruction) : (n.instruction i).uses = i.uses.map n.reg := by
  simp [Instruction.uses, operands_instruction, filterMap_map, map_filterMap, reg?_operand]

theorem uses_terminator (t : Terminator) : (n.terminator t).uses = t.uses.map n.reg := by
  simp [Terminator.uses, operands_terminator, filterMap_map, map_filterMap, reg?_operand]

theorem dest?_instruction (i : Instruction) : (n.instruction i).dest? = i.dest?.map n.reg := by
  rw [instruction, Instruction.dest?_mapDest, Instruction.dest?_mapOperands]

theorem registers_code (c : Code) : (n.code c).registers = c.registers.map n.reg := by
  have hdest : ∀ i : Instruction, (i.dest?.map n.reg).toList = i.dest?.toList.map n.reg := by
    intro i
    cases i.dest? <;> rfl
  simp only [code, Code.registers, flatMap_map, map_append, map_flatMap, uses_phi,
    uses_instruction, uses_terminator, dest?_instruction, hdest, map_cons]
  rfl

theorem constants_code (c : Code) : (n.code c).constants = c.constants := by
  have hconst : Operand.const? ∘ n.operand = Operand.const? := funext fun o => by cases o <;> rfl
  have hphi : ∀ q : Phi, (n.phi q).constants = q.constants := fun q => by
    simp only [phi, Phi.constants, filterMap_map]
    exact congrArg (q.incoming.filterMap ·) (funext fun e => congrFun hconst e.2)
  have hinst : ∀ i : Instruction, (n.instruction i).constants = i.constants := fun i => by
    unfold Instruction.constants
    rw [operands_instruction, filterMap_map, hconst]
    cases i <;> rfl
  have hexit : (n.terminator c.exit).constants = c.exit.constants := by
    rw [Terminator.constants, operands_terminator, filterMap_map, hconst, Terminator.constants]
  simp only [code, Code.constants, flatMap_map, hphi, hinst, hexit]

theorem instruction_comp (i : Instruction) :
    n.instruction (m.instruction i) = (n.comp m).instruction i := by
  cases i <;>
    simp [instruction, Instruction.mapOperands, Instruction.mapDest, operand_comp, comp,
      Function.comp_def]

theorem code_comp (c : Code) : n.code (m.code c) = (n.comp m).code c := by
  have hphi : ∀ q, n.phi (m.phi q) = (n.comp m).phi q := by
    intro q
    simp only [phi, List.map_map, Function.comp_def, operand_comp]
    rfl
  have hexit : n.terminator (m.terminator c.exit) = (n.comp m).terminator c.exit := by
    cases c.exit <;>
      simp [terminator, Terminator.mapOperands, Terminator.mapTargets, operand_comp,
        Function.comp_def, comp]
  simp only [code, List.map_map, Function.comp_def, hphi, instruction_comp, hexit]

theorem map_eq_self {α : Type} {l : List α} {h : α → α} (hl : ∀ a ∈ l, h a = a) : l.map h = l :=
  (map_congr_left hl).trans (List.map_id' l)

theorem instruction_eq_self {i : Instruction} (h : ∀ r ∈ i.uses ++ i.dest?.toList, n.reg r = r) :
    n.instruction i = i := by
  have ho : ∀ o ∈ i.operands, n.operand o = o := fun o ho => operand_eq_self fun r hr =>
    h r (mem_append_left _ (mem_filterMap.mpr ⟨o, ho, hr⟩))
  have hd : ∀ d ∈ i.dest?, n.reg d = d := fun d hd =>
    h d (mem_append_right _ (mem_toList.mpr hd))
  have hargs := fun os : List Operand => map_eq_self (l := os) (h := n.operand)
  have hdest : ∀ d : Option Reg, (∀ r ∈ d, n.reg r = r) → d.map n.reg = d := by
    intro d hd
    cases d with
    | none => rfl
    | some d => exact congrArg some (hd d rfl)
  clear h
  cases i <;>
    simp_all [instruction, Instruction.mapOperands, Instruction.mapDest, Instruction.operands,
      Instruction.dest?]

theorem phi_eq_self {q : Phi} (hr : ∀ r ∈ q.dest :: q.uses, n.reg r = r)
    (hl : ∀ l ∈ q.incoming.map Prod.fst, n.label l = l) : n.phi q = q := by
  have hin : ∀ e ∈ q.incoming, (n.label e.1, n.operand e.2) = e := fun e he => by
    rw [hl e.1 (List.mem_map_of_mem he), operand_eq_self fun r hr' =>
      hr r (mem_cons_of_mem _ (mem_filterMap.mpr ⟨e, he, hr'⟩))]
  rw [phi, hr q.dest mem_cons_self, map_eq_self hin]

theorem terminator_eq_self {t : Terminator} (hr : ∀ r ∈ t.uses, n.reg r = r)
    (hl : ∀ l ∈ t.successors, n.label l = l) : n.terminator t = t := by
  have ho : ∀ o ∈ t.operands, n.operand o = o := fun o ho => operand_eq_self fun r hr' =>
    hr r (mem_filterMap.mpr ⟨o, ho, hr'⟩)
  cases t with
  | switch v cases d =>
    have hcases : ∀ e ∈ cases, (e.1, n.label e.2) = e := fun e he => by
      rw [hl e.2 (mem_append_left _ (List.mem_map_of_mem he))]
    simp only [terminator, Terminator.mapOperands, Terminator.mapTargets, map_eq_self hcases,
      ho v mem_cons_self, hl d (mem_append_right _ mem_cons_self)]
  | ret v =>
    cases v with
    | none => rfl
    | some v =>
      simp only [terminator, Terminator.mapOperands, Terminator.mapTargets, map_some,
        ho v mem_cons_self]
  | _ => simp_all [terminator, Terminator.mapOperands, Terminator.mapTargets, Terminator.operands,
      Terminator.successors]

theorem code_eq_self {c : Code} (hr : ∀ r ∈ c.registers, n.reg r = r)
    (hl : ∀ l ∈ c.labels, n.label l = l) : n.code c = c := by
  have hphis : c.phis.map n.phi = c.phis := by
    refine map_eq_self fun q hq => phi_eq_self (fun r hr' => hr r ?_) fun l hl' => hl l ?_
    · exact mem_append_left _ (mem_append_left _ (mem_flatMap.mpr ⟨q, hq, hr'⟩))
    · exact mem_append_left _ (mem_flatMap.mpr ⟨q, hq, hl'⟩)
  have hbody : c.body.map n.instruction = c.body := by
    refine map_eq_self fun i hi => instruction_eq_self fun r hr' => hr r ?_
    exact mem_append_left _ (mem_append_right _ (mem_flatMap.mpr ⟨i, hi, hr'⟩))
  have hexit : n.terminator c.exit = c.exit := terminator_eq_self
    (fun r hr' => hr r (mem_append_right _ hr'))
    fun l hl' => hl l (mem_append_right _ hl')
  rw [code, hphis, hbody, hexit]

end Duplicates.Renaming

namespace Duplicates

variable {f g : Function} {k : BlockId} {c : Code} {r : Reg} {l : BlockId}

/-- There are no more things than numbers for them, so a thing is found under its number. -/
theorem getElem?_toNat_idxOf {α : Type} [DecidableEq α] (index : α → UInt32)
    (hi : ∀ a b, index a = index b → a = b) {l : List α} (hn : l.Nodup) {a : α} (ha : a ∈ l) :
    l[(l.idxOf a).toUInt32.toNat]? = some a := by
  have hlen : (l.map fun a => (index a).toNat).length ≤ (List.range UInt32.size).length := by
    refine (subperm_of_subset (hn.map fun a b hab => ?_) fun x hx => ?_).length_le
    · exact hi a b (UInt32.toNat_inj.mp hab)
    · obtain ⟨a, -, rfl⟩ := List.mem_map.mp hx
      exact mem_range.mpr (index a).toNat_lt
  rw [length_map, length_range] at hlen
  have hlt := idxOf_lt_length_of_mem ha
  rw [show (l.idxOf a).toUInt32.toNat = l.idxOf a from
    Nat.mod_eq_of_lt (Nat.lt_of_lt_of_le hlt hlen), getElem?_eq_getElem hlt,
    getElem_idxOf]

/-- The names that registers and blocks had before they were numbered. -/
def Renaming.back (f : Function) : Renaming where
  reg r := (registers f)[r.index.toNat]?.getD r
  label l := f.graph.blocks.keys[l.index.toNat]?.getD l

theorem back_reg (hr : r ∈ registers f) :
    (Renaming.back f).reg ((Renaming.ofFunction f).reg r) = r := by
  have h := getElem?_toNat_idxOf Reg.index (by rintro ⟨a⟩ ⟨b⟩ rfl; rfl)
    (l := registers f) (Spill.nodup_eraseDups _) hr
  exact congrArg (Option.getD · _) h

theorem back_label (hk : k ∈ f.graph.blocks.keys) :
    (Renaming.back f).label ((Renaming.ofFunction f).label k) = k := by
  have h := getElem?_toNat_idxOf BlockId.index (by rintro ⟨a⟩ ⟨b⟩ rfl; rfl)
    (l := f.graph.blocks.keys) f.graph.blocks.nodup hk
  simp only [Renaming.ofFunction, contains_iff_mem.mpr hk, if_true]
  exact congrArg (Option.getD · _) h

theorem mem_registers : r ∈ registers f ↔
    r ∈ f.proc.params ∨ ∃ k c, f.proc.code k = some c ∧ r ∈ c.registers := by
  have hblock : ∀ b : Block, blockRegisters b = b.code.registers := fun b => by
    simp only [blockRegisters, Block.code, Code.registers, flatMap_map]
  simp only [registers, mem_eraseDups, mem_append, mem_flatMap, hblock,
    Function.code_eq_some, Graph.blockList, Table.mem_values_iff]
  refine or_congr .rfl ⟨?_, ?_⟩
  · rintro ⟨b, ⟨k, hb⟩, hr⟩
    exact ⟨k, _, ⟨b, hb, rfl⟩, hr⟩
  · rintro ⟨k, _, ⟨b, hb, rfl⟩, hr⟩
    exact ⟨b, ⟨k, hb⟩, hr⟩

theorem mem_keys : k ∈ f.graph.blocks.keys ↔ (f.proc.code k).isSome := by
  rw [Function.isSome_code, Table.contains_iff, Table.mem_keys_iff]

theorem kinds_renumber {κ : Type} (h : κ → κ) (i : Nat) (l : List (Operation κ)) :
    (l.mapIdx fun x o => renumber h (i + x) o).map Operation.kind =
      (l.map Operation.kind).map h := by
  refine ext_getElem? fun j => ?_
  simp only [getElem?_map, getElem?_mapIdx]
  cases l[j]? <;> rfl

theorem codes_blocks (n : Renaming) (i : Nat) (bs : List Block) :
    (n.blocks i bs).map (fun b => (b.id, b.code)) =
      bs.map fun b => (n.label b.id, n.code b.code) := by
  induction bs generalizing i with
  | nil => rfl
  | cons b bs ih =>
    rw [Renaming.blocks, map_cons, map_cons, ih]
    simp only [Renaming.block, Block.code, Renaming.code, kinds_renumber]
    rfl

theorem codes_canonical (hk : f.graph.Keyed) :
    (canonical f).graph.blocks.entries.map (fun e => (e.1, e.2.code)) =
      f.graph.blocks.entries.map fun e =>
        ((Renaming.ofFunction f).label e.1, (Renaming.ofFunction f).code e.2.code) := by
  have hcodes := codes_blocks (Renaming.ofFunction f) 0 f.graph.blockList
  have hlist : f.graph.blockList.map (fun b => ((Renaming.ofFunction f).label b.id,
      (Renaming.ofFunction f).code b.code)) = f.graph.blocks.entries.map fun e =>
        ((Renaming.ofFunction f).label e.1, (Renaming.ofFunction f).code e.2.code) := by
    rw [Graph.blockList, Table.values, List.map_map]
    exact map_congr_left fun e he => by
      rw [Function.comp_apply, hk e.1 e.2 (Table.get?_eq_some_iff.mpr he)]
  have hnodup : (((Renaming.ofFunction f).blocks 0 f.graph.blockList).map Block.id).Nodup := by
    have hids := congrArg (List.map Prod.fst) (hcodes.trans hlist)
    rw [List.map_map, List.map_map] at hids
    have hkeys : (f.graph.blocks.keys.map (Renaming.ofFunction f).label).Nodup :=
      f.graph.blocks.nodup.map_on fun a ha b hb hab => by
        rw [← back_label ha, hab, back_label hb]
    rw [Table.keys, List.map_map] at hkeys
    exact hids ▸ hkeys
  rw [canonical, Table.entries_ofList (by rwa [List.map_map]), List.map_map]
  exact hcodes.trans hlist

theorem constants_canonical (hk : f.graph.Keyed) : (canonical f).constants = f.constants := by
  have hcodes := congrArg (List.flatMap fun e => e.2.constants) (codes_canonical hk)
  simp only [flatMap_map, Renaming.constants_code, ← Block.constants_eq] at hcodes
  simpa only [Function.constants, Graph.blockList, Table.values, flatMap_map] using hcodes

/-- Without floating point constants, the text of a canonical function tells what it is. -/
theorem canonical_eq_of_form (hkf : f.graph.Keyed) (hkg : g.graph.Keyed)
    (hf : ∀ c ∈ f.constants, c.isFloat = false) (hg : ∀ c ∈ g.constants, c.isFloat = false)
    (h : canonicalForm f = canonicalForm g) : canonical f = canonical g := by
  have hreads : ∀ {f : Function}, f.graph.Keyed → (∀ c ∈ f.constants, c.isFloat = false) →
      Shape.Reads Function.shape (canonical f).json (canonical f) := fun hk h =>
    Function.reads_json (by rwa [constants_canonical hk]) (.refl _)
  exact (hreads hkf hf).eq_of_render (hreads hkg hg) (congrArg String.ofList h)

theorem code_canonical (hk : f.graph.Keyed) :
    (canonical f).proc.code l = some c ↔ ∃ k c₀, f.proc.code k = some c₀ ∧
      (Renaming.ofFunction f).label k = l ∧ (Renaming.ofFunction f).code c₀ = c := by
  have hmem : (canonical f).proc.code l = some c ↔
      (l, c) ∈ (canonical f).graph.blocks.entries.map fun e => (e.1, e.2.code) := by
    simp [Function.code_eq_some, Graph.block?, Table.get?_eq_some_iff]
  rw [hmem, codes_canonical hk]
  simp only [List.mem_map, Prod.exists, Prod.mk.injEq, Function.code_eq_some, Graph.block?,
    Table.get?_eq_some_iff]
  constructor
  · rintro ⟨k, b, hb, hl, hc⟩
    exact ⟨k, b.code, ⟨b, hb, rfl⟩, hl, hc⟩
  · rintro ⟨k, _, ⟨b, hb, rfl⟩, hl, hc⟩
    exact ⟨k, b, hb, hl, hc⟩

/-- The names that things have in another function with the same canonical form. -/
def Renaming.between (f g : Function) : Renaming := (back g).comp (ofFunction f)

theorem isSome_of_mem_labels (hf : f.proc.Connected) (hc : f.proc.code k = some c)
    (hl : l ∈ c.labels) : (f.proc.code l).isSome := by
  rcases mem_append.mp hl with hl | hl
  · obtain ⟨q, hq, hl⟩ := mem_flatMap.mp hl
    obtain ⟨c', hc', -⟩ := (hf.source hc q hq l).mp hl
    exact isSome_iff_exists.mpr ⟨c', hc'⟩
  · exact hf.target ⟨c, hc, hl⟩

/-- What two numberings share is told apart by the one if it is told apart by the other. -/
theorem eq_of_back {α : Type} {p p' : α → Prop} {n n' b b' : α → α}
    (hb : ∀ a, p a → b (n a) = a) (hb' : ∀ a, p' a → b' (n' a) = a)
    (hn : ∀ a, p a → ∃ a', p' a' ∧ n' a' = n a) {x y : α} (hx : p x) (hy : p y)
    (h : b' (n x) = b' (n y)) : x = y := by
  obtain ⟨x', hx', hxn⟩ := hn x hx
  obtain ⟨y', hy', hyn⟩ := hn y hy
  rw [← hxn, ← hyn, hb' x' hx', hb' y' hy'] at h
  rw [← hb x hx, ← hb y hy, ← hxn, ← hyn, h]

section Same

variable (hkf : f.graph.Keyed) (hkg : g.graph.Keyed) (h : canonical f = canonical g)

include hkf hkg h

theorem exists_code (hc : f.proc.code k = some c) : ∃ k' c', g.proc.code k' = some c' ∧
    (Renaming.ofFunction g).label k' = (Renaming.ofFunction f).label k ∧
    (Renaming.ofFunction g).code c' = (Renaming.ofFunction f).code c :=
  (code_canonical hkg).mp (h ▸ (code_canonical hkf).mpr ⟨k, c, hc, rfl, rfl⟩)

omit hkf hkg in
theorem params_eq : g.proc.params.map (Renaming.ofFunction g).reg =
    f.proc.params.map (Renaming.ofFunction f).reg := by
  have hparams := congrArg (fun f => f.signature.params.map Param.reg) h
  simp only [canonical, List.map_map] at hparams
  simp only [Function.proc, List.map_map]
  exact hparams.symm

theorem exists_reg (hr : r ∈ registers f) :
    ∃ r', r' ∈ registers g ∧ (Renaming.ofFunction g).reg r' = (Renaming.ofFunction f).reg r := by
  rcases mem_registers.mp hr with hr | ⟨k, c, hc, hr⟩
  · obtain ⟨r', hr', he⟩ := List.mem_map.mp (params_eq h ▸ List.mem_map_of_mem hr)
    exact ⟨r', mem_registers.mpr (.inl hr'), he⟩
  · obtain ⟨k', c', hc', -, he⟩ := exists_code hkf hkg h hc
    have hregs := congrArg Code.registers he
    rw [Renaming.registers_code, Renaming.registers_code] at hregs
    obtain ⟨r', hr', he⟩ := List.mem_map.mp (hregs ▸ List.mem_map_of_mem hr)
    exact ⟨r', mem_registers.mpr (.inr ⟨k', c', hc', hr'⟩), he⟩

theorem eq_of_between_reg {d : Reg} (hr : r ∈ registers f) (hd : d ∈ registers f)
    (he : (Renaming.between f g).reg r = (Renaming.between f g).reg d) : r = d :=
  eq_of_back (fun _ hr => back_reg hr) (fun _ hr => back_reg hr)
    (fun _ hr => exists_reg hkf hkg h hr) hr hd he

theorem eq_of_between_label {l : BlockId} (hk : (f.proc.code k).isSome)
    (hl : (f.proc.code l).isSome)
    (he : (Renaming.between f g).label k = (Renaming.between f g).label l) : k = l := by
  refine eq_of_back (fun _ hk => back_label hk) (fun _ hk => back_label hk) (fun k hk => ?_)
    (mem_keys.mpr hk) (mem_keys.mpr hl) he
  obtain ⟨c, hc⟩ := isSome_iff_exists.mp (mem_keys.mp hk)
  obtain ⟨k', c', hc', he, -⟩ := exists_code hkf hkg h hc
  exact ⟨k', mem_keys.mpr (isSome_iff_exists.mpr ⟨c', hc'⟩), he⟩

/-- The code of the one function is that of the other one, under the names that it has there. -/
theorem code_between (hg : g.proc.Connected) (hc : f.proc.code k = some c) :
    g.proc.code ((Renaming.between f g).label k) = some ((Renaming.between f g).code c) := by
  obtain ⟨k', c', hc', hlabel, hcode⟩ := exists_code hkf hkg h hc
  have hk' : (Renaming.between f g).label k = k' := by
    show (Renaming.back g).label ((Renaming.ofFunction f).label k) = k'
    rw [← hlabel]
    exact back_label (mem_keys.mpr (isSome_iff_exists.mpr ⟨c', hc'⟩))
  rw [hk', hc', Renaming.between, ← Renaming.code_comp, ← hcode, Renaming.code_comp,
    Renaming.code_eq_self]
  · exact fun r hr => back_reg (mem_registers.mpr (.inr ⟨k', c', hc', hr⟩))
  · exact fun l hl => back_label (mem_keys.mpr (isSome_of_mem_labels hg hc' hl))

theorem incomingFor_between (hf : f.proc.Connected) (hc : f.proc.code k = some c) {q : Phi}
    (hq : q ∈ c.phis) {s : BlockId} (hs : (f.proc.code s).isSome) :
    ((Renaming.between f g).phi q).incomingFor ((Renaming.between f g).label s) =
      (q.incomingFor s).map (Renaming.between f g).operand := by
  have hlabels : ∀ e ∈ q.incoming, (f.proc.code e.1).isSome := fun e he =>
    isSome_of_mem_labels hf hc
      (mem_append_left _ (mem_flatMap.mpr ⟨q, hq, List.mem_map_of_mem he⟩))
  simp only [Phi.incomingFor, Renaming.phi]
  generalize q.incoming = es at hlabels
  induction es with
  | nil => rfl
  | cons e es ih =>
    have ih := ih fun e he => hlabels e (mem_cons_of_mem _ he)
    rw [map_cons, Table.lookup_cons_ite, Table.lookup_cons_ite, ih]
    by_cases he : s = e.1
    · rw [if_pos he, if_pos (congrArg _ he), map_some]
    · rw [if_neg he, if_neg fun hl => he (eq_of_between_label hkf hkg h hs
        (hlabels e mem_cons_self) hl)]

end Same

def coding (f g : Function) : Coding :=
  ⟨.between f g, (· ∈ registers f), fun _ => none, fun s _ => (f.proc.code s).isSome⟩

theorem recodes (hf : f.proc.Connected) (hg : g.proc.Connected) (hkf : f.graph.Keyed)
    (hkg : g.graph.Keyed) (h : canonical f = canonical g) {T : Translation}
    (hM : T.pairing.Faithful T.rename) (hcells : ∀ v, T.Places v) :
    T.Recodes (coding f g) f.proc (g.proc.redirect T.rename) where
  params := by
    have hself : g.proc.params.map ((Renaming.back g).comp (Renaming.ofFunction g)).reg =
        g.proc.params := Renaming.map_eq_self fun r hr => back_reg (mem_registers.mpr (.inl hr))
    rw [Renaming.comp, ← List.map_map, params_eq h, List.map_map] at hself
    exact hself.symm
  bound d hd :=
    ⟨fun r hr he => eq_of_between_reg hkf hkg h hr (mem_registers.mpr (.inl hd)) he, rfl⟩
  varargs := congrArg (fun f => f.signature.varargs) h.symm
  entry := by
    have hentry : (Renaming.ofFunction f).label f.graph.entry =
        (Renaming.ofFunction g).label g.graph.entry := congrArg (fun f => f.graph.entry) h
    exact ((congrArg (Renaming.back g).label hentry).trans
      (back_label (mem_keys.mpr hg.entry))).symm
  code {k c} _ hc := by
    have hregs : ∀ r ∈ c.registers, r ∈ registers f := fun r hr =>
      mem_registers.mpr (.inr ⟨k, c, hc, hr⟩)
    have hsharp : ∀ d ∈ c.registers, (coding f g).Sharp d := fun d hd r hr he =>
      eq_of_between_reg hkf hkg h hr (hregs d hd) he
    refine ⟨_, congrArg (Option.map _) (code_between hkf hkg h hg hc), ?_, ?_, ?_⟩
    · refine .map fun q hq => ?_
      have hmem : ∀ r ∈ q.dest :: q.uses, r ∈ c.registers := fun r hr =>
        mem_append_left _ (mem_append_left _ (mem_flatMap.mpr ⟨q, hq, hr⟩))
      refine ⟨rfl, hsharp _ (hmem _ mem_cons_self), rfl, fun s o hs ho => ⟨?_, fun r hr => ?_⟩⟩
      · exact (incomingFor_between hkf hkg h hf hc hq hs).trans (by rw [ho]; rfl)
      · obtain ⟨l₁, l₂, hl, -⟩ := List.lookup_eq_some_iff.mp ho
        exact hregs r (hmem r (mem_cons_of_mem _
          (mem_filterMap.mpr ⟨(s, o), by simp [hl], hr⟩)))
    · dsimp only [Renaming.code]
      rw [List.map_map]
      refine .renamed hM fun i hi => ?_
      have hmem : ∀ r ∈ i.uses ++ i.dest?.toList, r ∈ c.registers := fun r hr =>
        mem_append_left _ (mem_append_right _ (mem_flatMap.mpr ⟨i, hi, hr⟩))
      refine ⟨fun v _ => hcells v, fun o ho r hr => hregs r (hmem r (mem_append_left _
        (mem_filterMap.mpr ⟨o, ho, hr⟩))), fun d hd => hsharp d (hmem d
        (mem_append_right _ (mem_toList.mpr hd))), fun _ _ _ he => by cases he⟩
    · exact Translation.exits_renamed (fun o ho r hr => hregs r (mem_append_right _
        (mem_filterMap.mpr ⟨o, ho, hr⟩))) fun _ _ => isSome_iff_exists.mpr ⟨c, hc⟩

end Duplicates

end SiteFusion
