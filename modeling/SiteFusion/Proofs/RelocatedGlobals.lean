import SiteFusion.Proofs.SweptCode
import Mathlib.Data.List.NodupEquivFin

namespace SiteFusion

open List Option

def Global.initial (g : Global) : Const := g.initializer.getD g.ty.zero

def Machine.valueOf (machine : Machine) (g : GlobalId) : Option Value :=
  (machine.cells.get? g).bind fun c => machine.memory[c]?

def Module.KeyedGlobals (m : Module) : Prop := ∀ k g, m.globals.get? k = some g → g.id = k

instance (m : Module) : Decidable m.KeyedGlobals :=
  inferInstanceAs (Decidable (∀ k g, m.globals.get? k = some g → g.id = k))

namespace Machine

theorem memory_placeGlobals (gs : List Global) (cells : Table GlobalId Nat)
    (memory : Array Value) : (placeGlobals gs cells memory).2 =
      memory ++ (gs.map fun g => Value.ofConst g.initial).toArray := by
  induction gs generalizing cells memory with
  | nil => simp [placeGlobals]
  | cons g gs ih => simp [placeGlobals, ih, Global.initial, ← Array.append_singleton]

theorem get?_placeGlobals {gs : List Global} {cells : Table GlobalId Nat} {memory : Array Value}
    (hn : (gs.map Global.id).Nodup) (hc : ∀ k ∈ gs.map Global.id, cells.get? k = none)
    {k : GlobalId} {c : Nat} : (placeGlobals gs cells memory).1.get? k = some c ↔
      cells.get? k = some c ∨ ∃ i, (gs.map Global.id)[i]? = some k ∧ c = memory.size + i := by
  induction gs generalizing cells memory with
  | nil => simp [placeGlobals]
  | cons g gs ih =>
    rw [map_cons, nodup_cons] at hn
    have hnone : cells.get? g.id = none := hc g.id (by simp)
    rw [placeGlobals, ih hn.2 ?_, Table.get?_insert, Array.size_push]
    · constructor
      · rintro (h | ⟨i, hi, rfl⟩)
        · split at h
          · next he =>
            cases h
            exact .inr ⟨0, by simp [he], rfl⟩
          · exact .inl h
        · exact .inr ⟨i + 1, by simpa using hi, by omega⟩
      · rintro (h | ⟨i, hi, rfl⟩)
        · have hne : k ≠ g.id := by
            rintro rfl
            rw [hnone] at h
            cases h
          exact .inl (by rw [if_neg hne, h])
        · cases i with
          | zero =>
            have he : g.id = k := by simpa using hi
            exact .inl (by rw [if_pos he.symm]; rfl)
          | succ i => exact .inr ⟨i, by simpa using hi, by omega⟩
    · intro k hk
      have hne : k ≠ g.id := by
        rintro rfl
        exact hn.1 hk
      rw [Table.get?_insert, if_neg hne]
      exact hc k (mem_cons_of_mem _ hk)

variable {m : Module} (budget : Nat) {k : GlobalId} {c : Nat}

theorem cells_ofModule (hk : m.KeyedGlobals) :
    (ofModule m budget).cells.get? k = some c ↔ m.globals.keys[c]? = some k := by
  have hids : m.globals.values.map Global.id = m.globals.keys := Module.globalIds_eq hk
  have hget : (ofModule m budget).cells.get? k = some c ↔ _ :=
    get?_placeGlobals (hids ▸ m.globals.nodup) fun _ _ => rfl
  rw [hids] at hget
  refine hget.trans ⟨fun h => ?_, fun h => .inr ⟨c, h, by simp⟩⟩
  rcases h with h | ⟨i, hi, rfl⟩
  · cases h
  · simpa using hi

theorem memory_ofModule {g : Global} (hc : m.globals.keys[c]? = some k)
    (hg : m.globals.get? k = some g) :
    (ofModule m budget).memory[c]? = some (.ofConst g.initial) := by
  have hmem : (ofModule m budget).memory =
      (m.globals.values.map fun g => Value.ofConst g.initial).toArray :=
    (memory_placeGlobals m.globals.values .empty #[]).trans Array.empty_append
  rw [Table.keys, getElem?_map] at hc
  obtain ⟨⟨k', g'⟩, he, rfl⟩ := map_eq_some_iff.mp hc
  have hg' : m.globals.get? k' = some g' := Table.get?_eq_some_iff.mpr (mem_of_getElem? he)
  cases hg.symm.trans hg'
  rw [hmem, getElem?_toArray, getElem?_map, Table.values, getElem?_map, he]
  rfl

end Machine

/-- A cell is there and what it holds is as it should be. -/
def Holding (memory : Array Value) (c : Nat) (P : Value → Prop) : Prop :=
  ∃ v, memory[c]? = some v ∧ P v

namespace Holding

variable {memory : Array Value} {c : Nat} {P : Value → Prop}

theorem lt (h : Holding memory c P) : c < memory.size := by
  obtain ⟨v, hv, -⟩ := h
  exact (Array.getElem?_eq_some_iff.mp hv).1

theorem set (h : Holding memory c P) {d : Nat} (hd : d ≠ c) (w : Value) :
    Holding (memory.setIfInBounds d w) c P := by
  rw [Holding, Array.getElem?_setIfInBounds_ne hd]
  exact h

theorem push (h : Holding memory c P) (w : Value) : Holding (memory.push w) c P := by
  have hlt := h.lt
  rw [Holding, Array.getElem?_push, if_neg (by omega)]
  exact h

end Holding

/-- Memories that are the same but for some cells of both, which have nothing to do with each
other. What is known of such a cell says what it may hold. -/
structure Pairing.Private {γ : Type} (holds : γ → Value → Prop) (here there : Nat → Option γ)
    (ι : Placing) (small large : Array Value) : Prop where
  shared : Pairing.Partial id ι small large
  here : ∀ c x, here c = some x → ι c = none ∧ Holding small c (holds x)
  there : ∀ d x, there d = some x → (∀ c, ι c ≠ some d) ∧ Holding large d (holds x)

namespace Pairing

variable {γ : Type} {holds : γ → Value → Prop} {here there : Nat → Option γ} {ι : Placing}
  {small large : Array Value} {c d : Nat} {x y : γ} {v : Value}

theorem Partial.setLeft (h : Partial id ι small large) (hc : ι c = none) (v : Value) :
    Partial id ι (small.setIfInBounds c v) large := by
  refine ⟨h.ordered, fun c' d' hc' => ?_⟩
  obtain ⟨v', w, hv, hw, hm⟩ := h.value c' d' hc'
  have hne : c ≠ c' := by
    rintro rfl
    rw [hc] at hc'
    cases hc'
  exact ⟨v', w, by rw [Array.getElem?_setIfInBounds_ne hne, hv], hw, hm⟩

theorem Partial.setRight (h : Partial id ι small large) (hd : ∀ c, ι c ≠ some d) (v : Value) :
    Partial id ι small (large.setIfInBounds d v) := by
  refine ⟨h.ordered, fun c' d' hc' => ?_⟩
  obtain ⟨v', w, hv, hw, hm⟩ := h.value c' d' hc'
  have hne : d ≠ d' := by
    rintro rfl
    exact hd c' hc'
  exact ⟨v', w, hv, by rw [Array.getElem?_setIfInBounds_ne hne, hw], hm⟩

namespace Private

theorem setHere (h : Private holds here there ι small large) (hc : here c = some y)
    (hv : holds x v) :
    Private holds (Function.update here c (some x)) there ι (small.setIfInBounds c v) large where
  shared := h.shared.setLeft (h.here c _ hc).1 v
  here c' x' hc' := by
    obtain ⟨hn, hheld⟩ := h.here c y hc
    by_cases he : c' = c
    · subst he
      rw [Function.update_self] at hc'
      cases hc'
      exact ⟨hn, v, by simp [hheld.lt], hv⟩
    · rw [Function.update_of_ne he] at hc'
      exact (h.here c' x' hc').imp_right fun hheld => hheld.set (Ne.symm he) v
  there := h.there

theorem setThere (h : Private holds here there ι small large) (hd : there d = some y)
    (hv : holds x v) :
    Private holds here (Function.update there d (some x)) ι small (large.setIfInBounds d v) where
  shared := h.shared.setRight (h.there d _ hd).1 v
  here := h.here
  there d' x' hd' := by
    obtain ⟨hn, hheld⟩ := h.there d y hd
    by_cases he : d' = d
    · subst he
      rw [Function.update_self] at hd'
      cases hd'
      exact ⟨hn, v, by simp [hheld.lt], hv⟩
    · rw [Function.update_of_ne he] at hd'
      exact (h.there d' x' hd').imp_right fun hheld => hheld.set (Ne.symm he) v

theorem faithful (holds : γ → Value → Prop) (here there : Nat → Option γ) :
    Pairing.Faithful id (Private holds here there) where
  ordered h := h.shared.ordered
  bound h _ _ hc _ := h.shared.lt_large hc
  loaded h := Partial.faithful.loaded h.shared
  set {ι small large} h c d v w hc hm := by
    refine ⟨h.shared.set hc hm, fun c' x hc' => ?_, fun d' x hd' => ?_⟩
    · obtain ⟨hn, hheld⟩ := h.here c' x hc'
      refine ⟨hn, hheld.set ?_ v⟩
      rintro rfl
      rw [hn] at hc
      cases hc
    · obtain ⟨hn, hheld⟩ := h.there d' x hd'
      refine ⟨hn, hheld.set ?_ w⟩
      rintro rfl
      exact hn c hc
  push {ι small large} h c := by
    obtain ⟨κ, he, hs, hp, honly⟩ := h.shared.push (.ofConst c)
    refine ⟨κ, he, hs, hp, fun c' x hc' => ?_, fun d' x hd' => ?_⟩
    · obtain ⟨hn, hheld⟩ := h.here c' x hc'
      refine ⟨Option.eq_none_iff_forall_ne_some.mpr fun d hd => ?_, hheld.push _⟩
      rcases honly c' d hd with hd | ⟨rfl, -⟩
      · rw [hn] at hd
        cases hd
      · exact Nat.lt_irrefl _ hheld.lt
    · obtain ⟨hn, hheld⟩ := h.there d' x hd'
      refine ⟨fun c' hc' => ?_, hheld.push _⟩
      rcases honly c' d' hc' with hc' | ⟨-, rfl⟩
      · exact hn c' hc'
      · exact Nat.lt_irrefl _ hheld.lt

end Private

end Pairing

/-- What is known of a global variable that two memories need not share. -/
inductive Fate
  | fixed (c : Const)
  | idle

def Fate.Holds (x : Fate) (v : Value) : Prop := ∀ k, x = .fixed k → v = .ofConst k

theorem Fate.eq_of_holding {memory : Array Value} {c : Nat} {k : Const}
    (h : Holding memory c (Fate.fixed k).Holds) : memory[c]? = some (.ofConst k) := by
  obtain ⟨v, hv, hk⟩ := h
  rw [hv, hk k rfl]

theorem Fate.idle_holds (v : Value) : Fate.idle.Holds v := fun _ h => by cases h

/-- The module `m'` has some of the global variables of `m`, in the same order. -/
structure Module.Relocates (fate : GlobalId → Option Fate) (m m' : Module) : Prop where
  key : m.KeyedGlobals
  key' : m'.KeyedGlobals
  sublist : m'.globals.keys.Sublist m.globals.keys
  initial : ∀ k g g', m.globals.get? k = some g → m'.globals.get? k = some g' →
    g'.initial = g.initial
  fixed : ∀ k c, fate k = some (.fixed c) → ∀ g, m.globals.get? k = some g → g.initial = c

/-- Where the shared variables of a module lie in another one. -/
def Placing.globals (fate : GlobalId → Option Fate) (m m' : Module) : Placing := fun c =>
  m.globals.keys[c]?.bind fun k => match fate k with
    | none => m'.globals.keys.idxOf? k
    | some _ => none

def Module.fateAt (fate : GlobalId → Option Fate) (m : Module) (c : Nat) : Option Fate :=
  m.globals.keys[c]?.bind fate

theorem getElem?_eq_some_iff_idxOf? {l : List GlobalId} (hl : l.Nodup) {k : GlobalId} {i : Nat} :
    l.idxOf? k = some i ↔ l[i]? = some k := by
  induction l generalizing i with
  | nil => simp
  | cons a l ih =>
    rw [nodup_cons] at hl
    rw [idxOf?_cons]
    cases i with
    | zero => by_cases h : a = k <;> simp [h]
    | succ i =>
      by_cases h : a = k
      · subst h
        have : l[i]? ≠ some a := fun hi => hl.1 (mem_of_getElem? hi)
        simpa using this
      · simp [h, ih hl.2]

section

variable {fate : GlobalId → Option Fate} {m m' : Module} {c d : Nat} {k : GlobalId}

theorem Placing.globals_eq_some : Placing.globals fate m m' c = some d ↔
    ∃ k, m.globals.keys[c]? = some k ∧ fate k = none ∧ m'.globals.keys[d]? = some k := by
  unfold Placing.globals
  rw [Option.bind_eq_some_iff]
  refine exists_congr fun k => and_congr_right fun _ => ?_
  cases fate k with
  | none =>
    exact (getElem?_eq_some_iff_idxOf? m'.globals.nodup).trans ⟨fun h => ⟨rfl, h⟩, And.right⟩
  | some x => simp

namespace Module.Relocates

theorem paired (h : Relocates fate m m') (budget : Nat) :
    Pairing.onto (.Private Fate.Holds (m.fateAt fate) (m'.fateAt fate)) (.globals fate m m')
      (.globals fate m m') (Machine.ofModule m budget).memory
      (Machine.ofModule m' budget).memory := by
  have hvalue : ∀ {n : Module} {c k}, n.globals.keys[c]? = some k →
      ∃ g, n.globals.get? k = some g := fun hc => Table.mem_keys_iff.mp (mem_of_getElem? hc)
  have hheld : ∀ {n : Module} {c k x}, n.globals.keys[c]? = some k → fate k = some x →
      (∀ g, n.globals.get? k = some g → ∃ g₀, m.globals.get? k = some g₀ ∧
        g.initial = g₀.initial) → Holding (Machine.ofModule n budget).memory c x.Holds := by
    intro n c k x hc hx hinit
    obtain ⟨g, hg⟩ := hvalue hc
    obtain ⟨g₀, hg₀, he⟩ := hinit g hg
    have hmem := Machine.memory_ofModule budget hc hg
    refine ⟨_, hmem, ?_⟩
    rintro y rfl
    rw [he, h.fixed k y hx g₀ hg₀]
  refine ⟨⟨⟨?_, ?_⟩, fun c x hc => ?_, fun d x hd => ?_⟩, .refl _⟩
  · intro c d c' d' hc hd hlt
    obtain ⟨k, hk, -, hk'⟩ := Placing.globals_eq_some.mp hc
    obtain ⟨l, hl, -, hl'⟩ := Placing.globals_eq_some.mp hd
    obtain ⟨e, he⟩ := sublist_iff_exists_orderEmbedding_getElem?_eq.mp h.sublist
    have hplace : ∀ {i j k}, m.globals.keys[i]? = some k → m'.globals.keys[j]? = some k →
        e j = i := by
      intro i j k hi hj
      rw [he] at hj
      have := (getElem?_eq_some_iff_idxOf? m.globals.nodup).mpr hi
      rw [(getElem?_eq_some_iff_idxOf? m.globals.nodup).mpr hj] at this
      exact Option.some.inj this
    rw [← e.lt_iff_lt, hplace hk hk', hplace hl hl']
    exact hlt
  · intro c d hc
    obtain ⟨k, hk, -, hk'⟩ := Placing.globals_eq_some.mp hc
    obtain ⟨g, hg⟩ := hvalue hk
    obtain ⟨g', hg'⟩ := hvalue hk'
    refine ⟨_, _, Machine.memory_ofModule _ hk hg, Machine.memory_ofModule _ hk' hg', ?_⟩
    rw [h.initial k g g' hg hg']
    exact .ofConst _
  · obtain ⟨k, hk, hx⟩ := Option.bind_eq_some_iff.mp hc
    refine ⟨?_, hheld hk hx fun g hg => ⟨g, hg, rfl⟩⟩
    rw [Placing.globals, hk, Option.bind_some, hx]
  · obtain ⟨k, hk, hx⟩ := Option.bind_eq_some_iff.mp hd
    refine ⟨fun c hc => ?_, hheld hk hx fun g' hg' => ?_⟩
    · obtain ⟨l, -, hl, hl'⟩ := Placing.globals_eq_some.mp hc
      cases hk.symm.trans hl'
      rw [hx] at hl
      cases hl
    · obtain ⟨g, hg⟩ := Table.mem_keys_iff.mp (h.sublist.subset (mem_of_getElem? hk))
      exact ⟨g, hg, h.initial k g g' hg hg'⟩

end Module.Relocates

/-- A program with the global variables of `m`, and the one of `m'`. -/
def relocation (fate : GlobalId → Option Fate) (E : Program) (m m' : Module) (lax : Prop) :
    Translation :=
  ⟨E, m'.program, (Machine.ofModule m 0).cells, (Machine.ofModule m' 0).cells, id,
    Pairing.onto (.Private Fate.Holds (m.fateAt fate) (m'.fateAt fate)) (.globals fate m m'), lax⟩

namespace Translation

variable {E : Program} {lax : Prop} {i i' : Instruction} {v : Operand}

theorem faithful_relocation :
    (relocation fate E m m' lax).pairing.Faithful (relocation fate E m m' lax).rename :=
  (Pairing.Private.faithful _ _ _).onto _

theorem exists_targetCell (h : m.Relocates fate m') {k' : GlobalId}
    (hc : m.globals.keys[c]? = some k)
    (hkept : m.globals.contains k = true → m'.globals.contains k' = true) :
    ∃ d, (Machine.ofModule m' 0).cells.get? k' = some d ∧ m'.globals.keys[d]? = some k' := by
  have hk := Table.contains_iff.mpr (Table.mem_keys_iff.mp (mem_of_getElem? hc))
  have hk' := Table.mem_keys_iff.mpr (Table.contains_iff.mp (hkept hk))
  obtain ⟨d, hd⟩ := mem_iff_getElem?.mp hk'
  exact ⟨d, (Machine.cells_ofModule 0 h.key').mpr hd, hd⟩

theorem places_relocation (h : m.Relocates fate m') (hk : fate k = none)
    (hkept : m.globals.contains k = true → m'.globals.contains k = true) :
    (relocation fate E m m' lax).Places k := by
  intro c hc
  have hkey := (Machine.cells_ofModule 0 h.key).mp hc
  obtain ⟨d, hcell, hd⟩ := exists_targetCell h hkey hkept
  exact ⟨d, hcell, fun hm => hm.2 c d (Placing.globals_eq_some.mpr ⟨k, hkey, hk, hd⟩)⟩

theorem keeps_shared (h : m.Relocates fate m')
    (hi : ∀ g ∈ i.global?, fate g = none ∧
      (m.globals.contains g = true → m'.globals.contains g = true)) :
    (relocation fate E m m' lax).Keeps .all i i :=
  .same faithful_relocation rfl rfl (fun g hg => places_relocation h (hi g hg).1 (hi g hg).2)
    (fun _ _ _ _ => trivial) (fun _ _ _ _ h => h) fun _ _ _ h => by cases h

theorem keeps_fixed {d : Reg} {t : Ty} {x : Const} (h : m.Relocates fate m')
    (hx : fate k = some (.fixed x))
    (hi : i' = .const d x ∨ ∃ k', i' = .loadGlobal d k' t ∧ fate k' = some (.fixed x) ∧
      (m.globals.contains k = true → m'.globals.contains k' = true)) :
    (relocation fate E m m' lax).Keeps .all (.loadGlobal d k t) i' where
  dest := by
    rcases hi with rfl | ⟨k', rfl, -⟩ <;> rfl
  sharp := fun _ _ _ _ h => h
  sets := fun _ _ _ h => by cases h
  acts {ι small large ρ σ} hm _ _ := by
    intro o ho
    obtain ⟨c, hc, ho⟩ := Option.bind_eq_some_iff.mp ho
    have hkey := (Machine.cells_ofModule 0 h.key).mp hc
    have hsmall :=
      Fate.eq_of_holding (hm.1.here c _ (Option.bind_eq_some_iff.mpr ⟨k, hkey, hx⟩)).2
    rw [Machine.loaded, hsmall] at ho
    cases ho
    refine ⟨.plain (some (.ofConst x)) large, ?_, .plain (.refl ι) (.some (.ofConst x)) hm⟩
    rcases hi with rfl | ⟨k', rfl, hx', hkept⟩
    · rfl
    · obtain ⟨d', hcell, hd'⟩ := exists_targetCell h hkey hkept
      have hlarge :=
        Fate.eq_of_holding (hm.1.there d' _ (Option.bind_eq_some_iff.mpr ⟨k', hd', hx'⟩)).2
      simp [act, relocation, hcell, Machine.loaded, hlarge]

theorem keeps_idle (h : m.Relocates fate m') (hk : fate k = some .idle)
    (hkept : m.globals.contains k = true → m'.globals.contains k = true) :
    (relocation fate E m m' lax).Keeps .all (.storeGlobal k v) (.storeGlobal k v) where
  dest := rfl
  sharp := fun _ _ _ _ h => h
  sets := fun _ _ _ h => by cases h
  acts {ι small large ρ σ} hm ha _ := by
    intro o ho
    obtain ⟨c, hc, ho⟩ := Option.bind_eq_some_iff.mp ho
    obtain ⟨x, hx, ho⟩ := Option.bind_eq_some_iff.mp ho
    cases ho
    obtain ⟨y, hy, -⟩ := ha.value (o := v) (fun _ _ => trivial) x hx
    rw [Coding.all, Duplicates.Renaming.operand_same] at hy
    have hkey := (Machine.cells_ofModule 0 h.key).mp hc
    obtain ⟨d, hcell, hd⟩ := exists_targetCell h hkey hkept
    refine ⟨.plain none (large.setIfInBounds d y), by simp [act, relocation, hcell, hy],
      .plain (.refl ι) .none ⟨?_, hm.2⟩⟩
    have hhere := Option.bind_eq_some_iff.mpr ⟨k, hkey, hk⟩
    have hthere := Option.bind_eq_some_iff.mpr ⟨k, hd, hk⟩
    have hset := (hm.1.setHere hhere (Fate.idle_holds x)).setThere hthere (Fate.idle_holds y)
    rwa [Function.update_eq_self_iff.mpr hhere.symm, Function.update_eq_self_iff.mpr hthere.symm]
      at hset

theorem drops_idle (h : m.Relocates fate m') (hk : fate k = some .idle) (hlax : lax) :
    (relocation fate E m m' lax).Drops .all (.storeGlobal k v) where
  lax := hlax
  dead := fun _ h => by cases h
  sets := fun _ _ _ h => by cases h
  acts {ι small large ρ o} hm ho := by
    obtain ⟨c, hc, ho⟩ := Option.bind_eq_some_iff.mp ho
    obtain ⟨x, hx, ho⟩ := Option.bind_eq_some_iff.mp ho
    cases ho
    have hkey := (Machine.cells_ofModule 0 h.key).mp hc
    have hhere := Option.bind_eq_some_iff.mpr ⟨k, hkey, hk⟩
    have hset := hm.1.setHere hhere (Fate.idle_holds x)
    rw [Function.update_eq_self_iff.mpr hhere.symm] at hset
    exact ⟨none, _, rfl, hset, hm.2⟩

theorem recodes_bodies {T : Translation} {p p' : Proc} (hparams : p'.params = p.params)
    (hvarargs : p'.varargs = p.varargs) (hentry : p'.entry = p.entry)
    (hcode : ∀ k c, p.code k = some c → ∃ body, p'.code k = some { c with body := body } ∧
      T.Body .all c.body body) : T.Recodes .all p p' where
  params := hparams.trans (List.map_id p.params).symm
  bound _ _ := ⟨fun _ _ h => h, rfl⟩
  varargs := hvarargs
  entry := hentry
  code {k c} _ hc := by
    obtain ⟨body, hbody, hb⟩ := hcode k c hc
    refine ⟨_, hbody, ?_, hb, exits_same rfl (fun _ _ _ _ => trivial) fun _ _ => trivial⟩
    have h : Coding.all.Phis T.lax k c.phis (c.phis.map id) := .map fun q _ =>
      ⟨rfl, fun _ _ h => h, rfl, fun s o _ ho => ⟨?_, fun _ _ => trivial⟩⟩
    · rwa [List.map_id] at h
    · rw [Coding.all, Duplicates.Renaming.operand_same]
      exact ho

theorem call_relocation (h : m.Relocates fate m') (hT : (relocation fate E m m' lax).Sound)
    {f : FuncId} {args : List Value} {budget : Nat} {r : Machine} {v : Option Value}
    (hE : ∀ memory n, Yields (Machine.ofModule m 0).cells m.program (Machine.ofModule m 0).memory f
      args v memory n → Yields (Machine.ofModule m 0).cells E (Machine.ofModule m 0).memory f args v
      memory n)
    (hargs : ∀ c, .ptr c ∉ args) (hv : ∀ c, v ≠ some (.ptr c))
    (hcall : (Machine.ofModule m budget).call f args = (r, .ok v)) :
    ∃ r', (Machine.ofModule m' budget).call f args = (r', .ok v) ∧ r.budget ≤ r'.budget ∧
      (lax ∨ r'.budget = r.budget) ∧ ∀ g x, m'.globals.contains g = true → fate g ≠ some .idle →
        r.valueOf g = some x → (∀ c, x ≠ .ptr c) → r'.valueOf g = some x := by
  let T := relocation fate E m m' lax
  obtain ⟨small, left, hr⟩ := Machine.exists_call_fst (Machine.ofModule m budget) f args
  rw [hcall] at hr
  cases hr
  obtain ⟨n, hyields, hbudget⟩ := Machine.call_eq_ok_iff.mp hcall
  have hsource : Yields T.sourceCells T.source (Machine.ofModule m 0).memory f args v small n :=
    hE small n hyields
  obtain ⟨p, a, e, hp, hn, ha, hruns, hends⟩ := hsource
  obtain ⟨n', hfinds⟩ := hT.finds hp
  obtain ⟨κ, w, large, k', htarget, hcost, -, hw, hmem⟩ := hT.yields hfinds
    (h.paired 0) (Moved.forall₂_of_no_ptr hargs) (fun _ _ _ _ _ _ _ _ => .inl rfl)
    ⟨p, a, e, hp, hn, ha, hruns, hends⟩
  obtain rfl := hw.eq_of_ne_ptr hv
  obtain ⟨hle, hexact⟩ := hcost
  obtain ⟨spare, rfl⟩ := Nat.exists_eq_add_of_le hle
  have hres : (Machine.ofModule m' budget).call f args =
      (⟨m', T.targetCells, large, spare + left⟩, .ok w) :=
    Machine.call_eq_ok_iff.mpr ⟨k', htarget, by rw [hbudget]; omega⟩
  refine ⟨_, hres, Nat.le_add_left _ _, hexact.imp_right fun he => ?_,
    fun g x hg hfate hx hptr => ?_⟩
  · rw [show spare = 0 by omega, Nat.zero_add]
  · obtain ⟨c, hc, hx⟩ := Option.bind_eq_some_iff.mp hx
    have hkey := (Machine.cells_ofModule 0 h.key).mp hc
    obtain ⟨d, hcell, hd⟩ := exists_targetCell h hkey fun _ => hg
    refine Option.bind_eq_some_iff.mpr ⟨d, hcell, ?_⟩
    cases hfg : fate g with
    | none =>
      obtain ⟨x', y, hx', hy, hxy⟩ := hmem.1.shared.value c d
        (hmem.2 c d (Placing.globals_eq_some.mpr ⟨g, hkey, hfg, hd⟩))
      cases hx.symm.trans hx'
      rw [← hxy.eq_of_ne_ptr hptr]
      exact hy
    | some y =>
      cases y with
      | idle => exact absurd hfg hfate
      | fixed y =>
        have hsmall :=
          Fate.eq_of_holding (hmem.1.here c _ (Option.bind_eq_some_iff.mpr ⟨g, hkey, hfg⟩)).2
        have hlarge :=
          Fate.eq_of_holding (hmem.1.there d _ (Option.bind_eq_some_iff.mpr ⟨g, hd, hfg⟩)).2
        cases hx.symm.trans hsmall
        exact hlarge

end Translation

end

end SiteFusion
