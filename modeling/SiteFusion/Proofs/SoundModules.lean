import SiteFusion.Proofs.LawfulCalls
import SiteFusion.Proofs.PipelineInduction

namespace SiteFusion

open List Option

namespace Function

variable {l : Law} {f : Function} {p : FuncId → Prop} {q : GlobalId → Prop}

theorem Lawful.refers (hf : f.Lawful l) {o : Operation Instruction} (ho : o ∈ f.instructions) :
    l.Refers o.kind := by
  obtain ⟨k, b, hb, ho⟩ := mem_instructions.mp ho
  exact ((hf.block k b hb).instructions o ho).1.1

theorem Lawful.refer (hf : f.Lawful l)
    (h : ∀ o ∈ f.instructions, Law.Refers ⟨p, q, l.call, l.strict, l.free⟩ o.kind) :
    f.Lawful ⟨p, q, l.call, l.strict, l.free⟩ := by
  refine ⟨hf.entry, hf.trap, fun k b hb => ?_⟩
  have hlaw := hf.block k b hb
  exact ⟨hlaw.phis, fun o ho => ⟨⟨h o (mem_instructions.mpr ⟨k, b, hb, ho⟩),
    (hlaw.instructions o ho).1.2⟩, (hlaw.instructions o ho).2⟩, hlaw.edges⟩

theorem Lawful.enter (hf : f.Lawful l) {free : Prop} (h : free → l.free) :
    f.Lawful (l.entering free) := by
  refine ⟨hf.entry, hf.trap, fun k b hb => ?_⟩
  have hlaw := hf.block k b hb
  exact ⟨hlaw.phis, fun o ho => ⟨⟨(hlaw.instructions o ho).1.1, fun _ _ => trivial⟩,
      (hlaw.instructions o ho).2⟩,
    fun hl s hs => ⟨(hlaw.edges hl s hs).1, fun hfree => (hlaw.edges hl s hs).2 (h hfree)⟩⟩

theorem Lawful.mapInstructions (hf : f.Lawful l) {φ : Instruction → Instruction}
    (hm : φ .marker = .marker)
    (h : ∀ o ∈ f.instructions, Law.Refers ⟨p, q, fun _ _ => True, l.strict, l.free⟩ (φ o.kind)) :
    (f.mapInstructions φ).Lawful ⟨p, q, fun _ _ => True, l.strict, l.free⟩ := by
  have hlax : f.Lawful ⟨fun _ => True, fun _ => True, fun _ _ => True, l.strict, l.free⟩ :=
    (hf.enter fun h => h).refer fun _ _ => ⟨fun _ _ => trivial, fun _ _ => trivial⟩
  have hmap := (hlax.mapBlocks (c := fun _ b => b.mapInstructions φ) fun k b _ hb =>
    ⟨hb.phis, fun o ho => by
      obtain ⟨a, ha, rfl⟩ := List.mem_map.mp ho
      refine ⟨⟨⟨fun _ _ => trivial, fun _ _ => trivial⟩, fun _ _ => trivial⟩,
        (hb.instructions a ha).2.imp_right ?_⟩
      rintro ⟨hk, hfirst⟩
      refine ⟨?_, hfirst⟩
      rw [Operation.map, hk]
      exact hm, hb.edges⟩).lawful
  refine hmap.refer fun o ho => ?_
  obtain ⟨k, b', hb', ho⟩ := mem_instructions.mp ho
  rw [block?_mapBlocks] at hb'
  obtain ⟨b, hb, rfl⟩ := map_eq_some_iff.mp hb'
  obtain ⟨a, ha, rfl⟩ := List.mem_map.mp ho
  exact h a (mem_instructions.mpr ⟨k, b, hb, ha⟩)

theorem lawful_of_allows (hl : ¬ l.strict) (h : ∀ o ∈ f.instructions, l.Allows o) :
    f.Lawful l := by
  refine ⟨fun hs => absurd hs hl, fun hs => absurd hs hl, fun k b hb => ?_⟩
  exact ⟨fun _ _ hs => absurd hs hl, fun o ho => Law.stands_of_plain
    (h o (mem_instructions.mpr ⟨k, b, hb, ho⟩)) fun hs => absurd hs hl, fun hs => absurd hs hl⟩

theorem filterInstructions_eq_self (f : Function) {p : Operation Instruction → Bool}
    (h : ∀ o ∈ f.instructions, p o = true) :
    { f with
      graph := f.graph.mapBlocks fun b =>
        { b with instructions := b.instructions.filter p } } = f := by
  have hblocks : (f.graph.blocks.map fun b =>
      { b with instructions := b.instructions.filter p }) = f.graph.blocks := by
    refine Table.map_eq_self fun k b hb => ?_
    rw [filter_eq_self.mpr fun o ho => h o (mem_instructions.mpr ⟨k, b, hb, ho⟩)]
  unfold Graph.mapBlocks
  rw [hblocks]

theorem isDeclaration_mapBlocks (f : Function) (c : BlockId → Block → Block) :
    (f.mapBlocks c).isDeclaration = f.isDeclaration := by
  unfold isDeclaration mapBlocks Table.isEmpty Table.mapWithKey
  simp

end Function

/-- Whether something can be got at from outside its module. -/
def Linkage.Exported (l : Linkage) : Prop := l = .public_ ∨ l = .external

theorem Linkage.exported_iff {l : Linkage} : l.Exported ↔ l.isLocal = false := by
  cases l <;> simp [Exported, isLocal]

namespace Module

/-- The law of the functions of a module: if references are looked at, they lead to something in the
module. -/
def law (m : Module) (refs strict free : Prop) : Law :=
  ⟨fun c => refs → m.functions.contains c = true, fun g => refs → m.globals.contains g = true,
    fun _ _ => True, strict, free⟩

/-- A module in which everything is listed under its own number. If it is strict, the bodies are in
order, and `free` says that the entry blocks of functions that may be changed run only once. -/
structure Sound (refs strict free : Prop) (m : Module) : Prop where
  functionKey : ∀ k f, m.function? k = some f → f.id = k
  globalKey : ∀ k g, m.globals.get? k = some g → g.id = k
  counted : strict → ∀ k f, m.function? k = some f → f.Counted True
  lawful : ∀ k f, m.function? k = some f → (strict → f.isDeclaration = false) →
    f.Lawful (m.law refs strict (free ∧ (strict → f.isOptimizable = true)))

/-- What can be got at from outside a module is there in another one, under the same number and to
all appearances the same. -/
structure Exports (m n : Module) : Prop where
  function : ∀ k f, m.function? k = some f → f.attributes.linkage.Exported →
    ∃ g, n.function? k = some g ∧ g.name = f.name ∧
      g.attributes.linkage = f.attributes.linkage ∧ g.signature = f.signature
  global : ∀ k g, m.globals.get? k = some g → g.linkage.Exported →
    ∃ h, n.globals.get? k = some h ∧ h.name = g.name ∧ h.linkage = g.linkage

variable {refs strict free free' : Prop} {m n : Module} {k : FuncId} {f g : Function}

theorem Exports.refl (m : Module) : m.Exports m :=
  ⟨fun _ f hf _ => ⟨f, hf, rfl, rfl, rfl⟩, fun _ g hg _ => ⟨g, hg, rfl, rfl⟩⟩

theorem Exports.trans {m₁ m₂ m₃ : Module} (h : m₁.Exports m₂) (h' : m₂.Exports m₃) :
    m₁.Exports m₃ := by
  refine ⟨fun k f hf hl => ?_, fun k g hg hl => ?_⟩
  · obtain ⟨f₂, hf₂, hname, hlink, hsig⟩ := h.function k f hf hl
    obtain ⟨f₃, hf₃, hname', hlink', hsig'⟩ := h'.function k f₂ hf₂ (hlink ▸ hl)
    exact ⟨f₃, hf₃, hname'.trans hname, hlink'.trans hlink, hsig'.trans hsig⟩
  · obtain ⟨g₂, hg₂, hname, hlink⟩ := h.global k g hg hl
    obtain ⟨g₃, hg₃, hname', hlink'⟩ := h'.global k g₂ hg₂ (hlink ▸ hl)
    exact ⟨g₃, hg₃, hname'.trans hname, hlink'.trans hlink⟩

theorem exports_of_faces (hf : ∀ k f, m.function? k = some f → f.attributes.linkage.Exported →
      ∃ g, n.function? k = some g ∧ g.face = f.face) (hg : n.globals = m.globals) :
    m.Exports n := by
  refine ⟨fun k f hk hl => ?_, fun k g hk _ => ⟨g, hg ▸ hk, rfl, rfl⟩⟩
  obtain ⟨g, hn, hface⟩ := hf k f hk hl
  exact ⟨g, hn, congrArg Header.name hface,
    congrArg (fun h => h.attributes.linkage) hface, congrArg Header.signature hface⟩

theorem Sound.mono (h : m.Sound refs strict free) (hfree : free' → free) :
    m.Sound refs strict free' :=
  ⟨h.functionKey, h.globalKey, h.counted, fun k f hf hd =>
    (h.lawful k f hf hd).enter fun hfr => ⟨hfree hfr.1, hfr.2⟩⟩

theorem not_isDeclaration_of_isOptimizable (ho : f.isOptimizable = true) :
    f.isDeclaration = false := by
  rw [Function.isOptimizable, Bool.and_eq_true_iff, Bool.not_eq_true'] at ho
  exact ho.1

theorem Sound.function (h : m.Sound refs strict free) (hf : m.function? k = some f)
    (ho : strict → f.isOptimizable = true) : f.Lawful (m.law refs strict free) :=
  (h.lawful k f hf fun hs => not_isDeclaration_of_isOptimizable (ho hs)).enter fun hfr => ⟨hfr, ho⟩

theorem law_setFunction (m : Module) (k : FuncId) (g : Function) :
    (m.setFunction k g).law refs strict free = m.law refs strict free := by
  have hc : ∀ c, (m.setFunction k g).functions.contains c = m.functions.contains c := by
    intro c
    have hf := m.function?_setFunction k c g
    rw [Table.contains, Table.contains]
    unfold function? at hf
    rw [hf]
    split
    · exact isSome_map ..
    · rfl
  simp only [law, hc]
  rfl

theorem Sound.setFunction (h : m.Sound refs strict free) (hf : m.function? k = some f)
    (hface : g.face = f.face) (hc : strict → g.Counted True)
    (hl : g.Lawful (m.law refs strict free)) : (m.setFunction k g).Sound refs strict free := by
  refine ⟨fun j g' hj => ?_, h.globalKey, fun hs j g' hj => ?_, fun j g' hj hd => ?_⟩
  · rcases cases_of_setFunction hf hj with ⟨rfl, rfl⟩ | ⟨-, hj⟩
    · exact (congrArg Header.id hface).trans (h.functionKey _ f hf)
    · exact h.functionKey j g' hj
  · rcases cases_of_setFunction hf hj with ⟨rfl, rfl⟩ | ⟨-, hj⟩
    · exact hc hs
    · exact h.counted hs j g' hj
  · rw [law_setFunction]
    rcases cases_of_setFunction hf hj with ⟨rfl, rfl⟩ | ⟨-, hj⟩
    · exact hl.enter And.left
    · exact h.lawful j g' hj hd

theorem exports_setFunction (hf : m.function? k = some f) (hface : g.face = f.face) :
    m.Exports (m.setFunction k g) := by
  refine exports_of_faces (fun j f' hj _ => ?_) rfl
  rw [function?_setFunction]
  by_cases he : j = k
  · subst he
    cases hf.symm.trans hj
    exact ⟨g, by rw [if_pos rfl, hf]; rfl, hface⟩
  · exact ⟨f', by rw [if_neg he, hj], rfl⟩

/-- How a function of a module becomes one of another module. -/
structure Narrows (refs strict : Prop) (m n : Module) (f g : Function) : Prop where
  face : g.face = f.face
  body : g.isDeclaration = false → f.isDeclaration = false
  counted : f.Counted True → g.Counted True
  lawful : ∀ free, f.Lawful (m.law refs strict free) → g.Lawful (n.law refs strict free)

theorem Narrows.isOptimizable (h : Narrows refs strict m n f g) (ho : g.isOptimizable = true) :
    f.isOptimizable = true := by
  have hnone : g.attributes.optimizeNone = f.attributes.optimizeNone :=
    congrArg (fun h => h.attributes.optimizeNone) h.face
  rw [Function.isOptimizable, Bool.and_eq_true_iff, Bool.not_eq_true'] at ho ⊢
  exact ⟨h.body ho.1, hnone ▸ ho.2⟩

theorem Sound.narrow (h : m.Sound refs strict free)
    (hf : ∀ k g, n.function? k = some g →
      ∃ f, m.function? k = some f ∧ Narrows refs strict m n f g)
    (hg : ∀ k g, n.globals.get? k = some g → ∃ g', m.globals.get? k = some g' ∧ g.id = g'.id) :
    n.Sound refs strict free := by
  refine ⟨fun k g hk => ?_, fun k g hk => ?_, fun hs k g hk => ?_, fun k g hk hd => ?_⟩
  · obtain ⟨f, hm, hn⟩ := hf k g hk
    exact (congrArg Header.id hn.face).trans (h.functionKey k f hm)
  · obtain ⟨g', hm, hid⟩ := hg k g hk
    exact hid.trans (h.globalKey k g' hm)
  · obtain ⟨f, hm, hn⟩ := hf k g hk
    exact hn.counted (h.counted hs k f hm)
  · obtain ⟨f, hm, hn⟩ := hf k g hk
    refine hn.lawful _ ((h.lawful k f hm fun hs => hn.body (hd hs)).enter fun hfr => ⟨hfr.1, ?_⟩)
    exact fun hs => hn.isOptimizable (hfr.2 hs)

/-- Instructions are replaced by others that define the same registers and refer to what is
there. -/
theorem narrows_mapInstructions {φ : Instruction → Instruction} (hd : ∀ i, (φ i).dest? = i.dest?)
    (hm : φ .marker = .marker)
    (hφ : ∀ i, (m.law refs strict True).Refers i → (n.law refs strict True).Refers (φ i))
    (f : Function) : Narrows refs strict m n f (f.mapInstructions φ) := by
  refine ⟨rfl, fun hb => ?_, fun hc => ?_, fun free' hlaw => ?_⟩
  · exact (f.isDeclaration_mapBlocks fun _ b => b.mapInstructions φ).symm.trans hb
  · exact ((Function.counted_iff.mp hc).mapInstructions hd).counted
  · exact hlaw.mapInstructions hm fun o ho => hφ o.kind (hlaw.refers ho)

theorem functionIds_eq (h : ∀ k f, m.function? k = some f → f.id = k) :
    m.functionList.map Function.id = m.functions.keys := by
  rw [functionList, Table.values, Table.keys, List.map_map]
  exact map_congr_left fun x hx => h x.1 x.2 (Table.get?_eq_some_iff.mpr hx)

theorem globalIds_eq (h : ∀ k g, m.globals.get? k = some g → g.id = k) :
    m.globals.values.map Global.id = m.globals.keys := by
  rw [Table.values, Table.keys, List.map_map]
  exact map_congr_left fun x hx => h x.1 x.2 (Table.get?_eq_some_iff.mpr hx)

end Module

namespace Duplicates

section

variable {κ ι : Type} [DecidableEq κ]

theorem perm_addMember (gs : List (κ × List ι)) (a : Member κ ι) :
    ((addMember gs a).flatMap Prod.snd).Perm (a.id :: gs.flatMap Prod.snd) := by
  induction gs with
  | nil => exact .refl _
  | cons x gs ih =>
    obtain ⟨k, ids⟩ := x
    unfold addMember
    split
    · rw [flatMap_cons, flatMap_cons]
      split
      · simp only [append_assoc]
        exact perm_middle
      · exact .refl _
    · rw [flatMap_cons, flatMap_cons]
      exact (ih.append_left ids).trans perm_middle

theorem perm_groups (members : List (Member κ ι)) :
    (groups members).flatten.Perm (members.map Member.id) := by
  have hfold : ∀ (gs : List (κ × List ι)), ((members.foldl addMember gs).flatMap Prod.snd).Perm
      (members.map Member.id ++ gs.flatMap Prod.snd) := by
    induction members with
    | nil => exact fun gs => .refl _
    | cons a members ih =>
      intro gs
      refine (ih (addMember gs a)).trans ?_
      exact ((perm_addMember gs a).append_left _).trans perm_middle
  simpa [groups, flatMap_def] using hfold []

theorem sublist_filterMap {α β : Type} {c : α → Option β} {i : α → ι} {j : β → ι} (l : List α)
    (h : ∀ a b, c a = some b → j b = i a) : ((l.filterMap c).map j).Sublist (l.map i) := by
  induction l with
  | nil => exact .slnil
  | cons a l ih =>
    rw [filterMap_cons]
    split
    · exact ih.cons _
    · next b hb =>
      rw [map_cons, map_cons, h a b hb]
      exact ih.cons_cons _

variable [DecidableEq ι]

theorem replaceIn_cases {isLocal : ι → Edit Bool} {leader : ι} {ids : List ι} {t t' : Table ι ι}
    (h : replaceIn isLocal leader ids t = .ok t') {a b : ι} (hab : t'.get? a = some b) :
    t.get? a = some b ∨ a ∈ ids ∧ b = leader ∧ isLocal a = .ok true := by
  induction ids generalizing t with
  | nil =>
    cases h
    exact .inl hab
  | cons c ids ih =>
    obtain ⟨isLoc, hc, h⟩ := bind_eq_ok.mp h
    rcases ih h with hget | ⟨ha, hb⟩
    · cases isLoc with
      | false => exact .inl hget
      | true =>
        rw [if_pos rfl, Table.get?_insert] at hget
        split at hget
        · next he =>
          cases hget
          exact .inr ⟨he ▸ mem_cons_self, rfl, he ▸ hc⟩
        · exact .inl hget
    · exact .inr ⟨mem_cons_of_mem _ ha, hb⟩

theorem replacements_cases {isLocal : ι → Edit Bool} {gs : List (List ι)} {t t' : Table ι ι}
    (h : replacements isLocal gs t = .ok t') {a b : ι} (hab : t'.get? a = some b) :
    t.get? a = some b ∨ ∃ ids, b :: ids ∈ gs ∧ a ∈ ids ∧ isLocal a = .ok true := by
  induction gs generalizing t with
  | nil =>
    cases h
    exact .inl hab
  | cons g gs ih =>
    cases g with
    | nil => exact (ih h).imp_right fun ⟨ids, hmem, ha⟩ => ⟨ids, mem_cons_of_mem _ hmem, ha⟩
    | cons leader ids =>
      obtain ⟨t₁, h₁, h⟩ := bind_eq_ok.mp h
      rcases ih h with hget | ⟨ids', hmem, ha⟩
      · rcases replaceIn_cases h₁ hget with hget | ⟨ha, rfl, hl⟩
        · exact .inl hget
        · exact .inr ⟨ids, mem_cons_self, ha, hl⟩
      · exact .inr ⟨ids', mem_cons_of_mem _ hmem, ha⟩

theorem of_replacements {ν : Type} {isLocal : ι → Edit Bool} {members : List (Member κ ι)}
    {s : Table ι ν} {t : Table ι ι} (hs : (members.map Member.id).Sublist s.keys)
    (h : replacements isLocal (groups members) .empty = .ok t) {a b : ι}
    (hab : t.get? a = some b) :
    isLocal a = .ok true ∧ s.contains b = true ∧ t.get? b = none := by
  have hnodup := (perm_groups members).nodup_iff.mpr (s.nodup.sublist hs)
  obtain ⟨hone, hapart⟩ := nodup_flatten.mp hnodup
  obtain ⟨ids, hmem, -, hl⟩ := (replacements_cases h hab).resolve_left fun h => nomatch h
  have hb : b ∈ members.map Member.id :=
    (perm_groups members).mem_iff.mp (mem_flatten.mpr ⟨_, hmem, mem_cons_self⟩)
  refine ⟨hl, Table.contains_iff.mpr (Table.mem_keys_iff.mp (hs.subset hb)), ?_⟩
  -- A leader stands in one group only, and there at the front.
  refine eq_none_iff_forall_ne_some.mpr fun c hbc => ?_
  obtain ⟨ids', hmem', hb', -⟩ := (replacements_cases h hbc).resolve_left fun h => nomatch h
  by_cases hsame : c :: ids' = b :: ids
  · cases hsame
    exact (nodup_cons.mp (hone _ hmem)).1 hb'
  · have : Std.Symm (List.Disjoint (α := ι)) := ⟨fun _ _ hd _ ha hb => hd hb ha⟩
    exact hapart.forall hmem' hmem hsame (mem_cons_of_mem _ hb') mem_cons_self

end

variable {refs strict free : Prop} {m n : Module} {r : Report}

theorem function?_redirectFunction (t : Table FuncId FuncId) (i : Instruction) :
    (redirectFunction t i).function? = i.function?.map (substitute t) ∧
      (redirectFunction t i).global? = i.global? := by
  cases i <;> exact ⟨rfl, rfl⟩

theorem global?_redirectGlobal (t : Table GlobalId GlobalId) (i : Instruction) :
    (redirectGlobal t i).global? = i.global?.map (substitute t) ∧
      (redirectGlobal t i).function? = i.function? := by
  cases i <;> exact ⟨rfl, rfl⟩

theorem contains_substitute {ι ν : Type} [DecidableEq ι] {s : Table ι ν} {t : Table ι ι} {a : ι}
    (ht : ∀ b, t.get? a = some b → s.contains b = true ∧ t.get? b = none)
    (ha : s.contains a = true) :
    (s.filter fun k _ => !t.contains k).contains (substitute t a) = true := by
  have hkeep : ∀ b, s.contains b = true → t.get? b = none →
      (s.filter fun k _ => !t.contains k).contains b = true := by
    intro b hb hn
    obtain ⟨v, hv⟩ := Table.contains_iff.mp hb
    refine Table.contains_iff.mpr ⟨v, ?_⟩
    rw [Table.get?_filter, hv, filter_some, Table.contains, hn]
    rfl
  unfold substitute
  cases hget : t.get? a with
  | none => exact hkeep a ha hget
  | some b => exact hkeep b (ht b hget).1 (ht b hget).2

theorem sublist_constantMembers (h : ∀ k g, m.globals.get? k = some g → g.id = k) :
    ((m.globals.values.filterMap constantMember?).map Member.id).Sublist m.globals.keys := by
  rw [← Module.globalIds_eq h]
  refine sublist_filterMap m.globals.values fun g x hx => ?_
  unfold constantMember? at hx
  split at hx
  · cases hx
  · obtain ⟨c, -, rfl⟩ := map_eq_some_iff.mp hx
    rfl

theorem mergeConstants_sound (h : m.Sound refs strict free)
    (hm : mergeConstants m = .ok (n, r)) :
    n.Sound refs strict free ∧ m.Exports n ∧ (r.modified = false → n = m) := by
  obtain ⟨t, ht, hm⟩ := bind_eq_ok.mp hm
  split at hm
  · cases hm
    exact ⟨h, .refl _, fun _ => rfl⟩
  · cases hm
    have hrep := fun a b => of_replacements (sublist_constantMembers h.globalKey) ht (a := a) (b := b)
    refine ⟨h.narrow (fun k g hk => ?_) fun k g hk => ?_, ⟨fun k f hf _ => ?_, fun k g hg hl => ?_⟩,
      fun hr => by cases hr⟩
    · simp only [Module.function?, Module.mapInstructions, Table.get?_map] at hk
      obtain ⟨f, hf, rfl⟩ := map_eq_some_iff.mp hk
      refine ⟨f, hf, Module.narrows_mapInstructions (fun i => by cases i <;> rfl) rfl
        (fun i hi => ⟨fun c hc hrefs => ?_, fun g hg hrefs => ?_⟩) f⟩
      · rw [(global?_redirectGlobal t i).2] at hc
        rw [← hi.1 c hc hrefs]
        exact Table.contains_map ..
      · rw [(global?_redirectGlobal t i).1] at hg
        obtain ⟨a, ha, rfl⟩ := map_eq_some_iff.mp hg
        exact contains_substitute (fun b hb => (hrep a b hb).2) (hi.2 a ha hrefs)
    · rw [Table.get?_filter] at hk
      exact ⟨g, (filter_eq_some_iff.mp hk).1, rfl⟩
    · refine ⟨f.mapInstructions (redirectGlobal t), ?_, rfl, rfl, rfl⟩
      simp only [Module.function?, Module.mapInstructions, Table.get?_map]
      exact congrArg _ hf
    · refine ⟨g, ?_, rfl, rfl⟩
      rw [Table.get?_filter, filter_eq_some_iff]
      refine ⟨hg, ?_⟩
      rw [Bool.not_eq_true', Bool.eq_false_iff]
      intro ht
      obtain ⟨b, hb⟩ := Table.contains_iff.mp ht
      have hlocal := (hrep k b hb).1
      rw [isLocalGlobal, hg, Except.ok.injEq] at hlocal
      rw [Linkage.exported_iff, hlocal] at hl
      cases hl

theorem sublist_functionMembers (h : ∀ k f, m.function? k = some f → f.id = k) :
    ((m.functionList.filterMap functionMember?).map Member.id).Sublist m.functions.keys := by
  rw [← Module.functionIds_eq h]
  refine sublist_filterMap m.functionList fun f x hx => ?_
  unfold functionMember? at hx
  split at hx
  · cases hx
    rfl
  · cases hx

theorem mergeFunctions_sound (h : m.Sound refs strict free)
    (hm : mergeFunctions m = .ok (n, r)) :
    n.Sound refs strict free ∧ m.Exports n ∧ (r.modified = false → n = m) := by
  obtain ⟨t, ht, hm⟩ := bind_eq_ok.mp hm
  split at hm
  · cases hm
    exact ⟨h, .refl _, fun _ => rfl⟩
  · cases hm
    have hrep := fun a b => of_replacements (sublist_functionMembers h.functionKey) ht (a := a) (b := b)
    refine ⟨h.narrow (fun k g hk => ?_) fun k g hk => ⟨g, hk, rfl⟩,
      Module.exports_of_faces (fun k f hf hl => ?_) rfl, fun hr => by cases hr⟩
    · simp only [Module.function?, redirectFunctions, Module.mapInstructions, Table.get?_filter,
        Table.get?_map] at hk
      obtain ⟨f, hf, rfl⟩ := map_eq_some_iff.mp (filter_eq_some_iff.mp hk).1
      refine ⟨f, hf, Module.narrows_mapInstructions (fun i => by cases i <;> rfl) rfl
        (fun i hi => ⟨fun c hc hrefs => ?_, fun g hg hrefs => ?_⟩) f⟩
      · rw [(function?_redirectFunction t i).1] at hc
        obtain ⟨a, ha, rfl⟩ := map_eq_some_iff.mp hc
        refine contains_substitute (fun b hb => ?_) ((Table.contains_map ..).trans (hi.1 a ha hrefs))
        exact (hrep a b hb).2.imp_left (Table.contains_map ..).trans
      · rw [(function?_redirectFunction t i).2] at hg
        exact hi.2 g hg hrefs
    · refine ⟨f.mapInstructions (redirectFunction t), ?_, rfl⟩
      simp only [Module.function?, redirectFunctions, Module.mapInstructions, Table.get?_filter,
        Table.get?_map]
      rw [filter_eq_some_iff]
      refine ⟨congrArg _ hf, ?_⟩
      rw [Bool.not_eq_true', Bool.eq_false_iff]
      intro ht
      obtain ⟨b, hb⟩ := Table.contains_iff.mp ht
      have hlocal := (hrep k b hb).1
      rw [isLocalFunction, hf, Except.ok.injEq] at hlocal
      rw [Linkage.exported_iff, hlocal] at hl
      cases hl

end Duplicates

namespace Globals

variable {refs strict free : Prop} {m n : Module} {r : Report} {known : List (GlobalId × Const)}
  {idle : List GlobalId} {f : Function} {l : Law}

theorem refers_foldLoad {i : Instruction} (hi : l.Refers i) : l.Refers (foldLoad known i) := by
  unfold foldLoad
  split
  · split
    · exact Law.refers_of_none rfl rfl
    · exact hi
  · exact hi

theorem callee?_foldLoad {i : Instruction} {c : FuncId} (h : (foldLoad known i).callee? = some c) :
    i.callee? = some c := by
  unfold foldLoad at h
  split at h
  · split at h
    · cases h
    · exact h
  · exact h

theorem simplifyFunction_lawful (hf : f.Lawful l) : (simplifyFunction known idle f).Lawful l := by
  unfold simplifyFunction
  split
  · refine (hf.mapBlocks (c := fun _ b => simplifyBlock known idle b) fun k b _ hb =>
      ⟨hb.phis, fun o ho => ?_, hb.edges⟩).lawful
    obtain ⟨a, ha, rfl⟩ := List.mem_map.mp (mem_of_mem_filter ho)
    obtain ⟨⟨hrefers, hcall⟩, hnote⟩ := hb.instructions a ha
    refine ⟨⟨refers_foldLoad hrefers, fun c hc => hcall c (callee?_foldLoad hc)⟩,
      hnote.imp_right fun hm => ⟨?_, hm.2⟩⟩
    rw [Operation.map, hm.1]
    rfl
  · exact hf

theorem simplifyFunction_eq_self (h : f.isOptimizable = true → ∀ o ∈ f.instructions,
      foldsLoad known o.kind = false ∧ isIdleStore idle o.kind = false) :
    simplifyFunction known idle f = f := by
  unfold simplifyFunction
  split
  · next ho =>
    have hblock : ∀ k b, f.graph.block? k = some b → simplifyBlock known idle b = b := by
      intro k b hb
      have hb : ∀ o ∈ b.instructions, foldsLoad known o.kind = false ∧
          isIdleStore idle o.kind = false :=
        fun o hmem => h ho o (Function.mem_instructions.mpr ⟨k, b, hb, hmem⟩)
      have hmap : b.instructions.map (fun o => o.map (foldLoad known)) = b.instructions := by
        refine (map_congr_left fun o hmem => ?_).trans (List.map_id' _)
        have hfold := (hb o hmem).1
        obtain ⟨id, i, tags⟩ := o
        cases i with
        | loadGlobal d g ty =>
          have hnone : known.lookup g = none := isSome_eq_false_iff.mp hfold |> isNone_iff_eq_none.mp
          simp [Operation.map, foldLoad, hnone]
        | _ => rfl
      unfold simplifyBlock Block.mapInstructions
      dsimp only
      rw [hmap, filter_eq_self.mpr fun o hmem => by rw [(hb o hmem).2]; rfl]
    have hblocks : f.graph.blocks.map (simplifyBlock known idle) = f.graph.blocks :=
      Table.map_eq_self hblock
    unfold Graph.mapBlocks
    rw [hblocks]
  · rfl

theorem sound_of_simplified (h : m.Sound refs strict free) {c : GlobalId → Global → Global}
    (hc : ∀ k g, (c k g).id = g.id ∧ (c k g).name = g.name ∧ (c k g).linkage = g.linkage)
    (hf : n.functions = m.functions.map (simplifyFunction known idle))
    (hg : n.globals = m.globals.mapWithKey c) : n.Sound refs strict free ∧ m.Exports n := by
  have hface : ∀ f : Function, (simplifyFunction known idle f).face = f.face := by
    intro f
    unfold simplifyFunction
    split
    · rfl
    · rfl
  have hlaw : ∀ free', n.law refs strict free' = m.law refs strict free' := by
    intro free'
    have hglobals : ∀ g, n.globals.contains g = m.globals.contains g := by
      intro g
      rw [hg, Table.contains, Table.contains, Table.get?_mapWithKey, isSome_map]
    simp only [Module.law, hf, Table.contains_map, hglobals]
  refine ⟨h.narrow (fun k g hk => ?_) fun k g hk => ?_, ⟨fun k f hk _ => ?_, fun k g hk _ => ?_⟩⟩
  · rw [Module.function?, hf, Table.get?_map] at hk
    obtain ⟨f, hf, rfl⟩ := map_eq_some_iff.mp hk
    refine ⟨f, hf, hface f, fun hd => ?_, fun hcount => ?_, fun free' hl => ?_⟩
    · unfold simplifyFunction at hd
      split at hd
      · exact (f.isDeclaration_mapBlocks fun _ b => simplifyBlock known idle b).symm.trans hd
      · exact hd
    · exact (simplifyFunction_spare known idle (Function.counted_iff.mp hcount)).counted
    · rw [hlaw]
      exact simplifyFunction_lawful hl
  · rw [hg, Table.get?_mapWithKey] at hk
    obtain ⟨g', hg', rfl⟩ := map_eq_some_iff.mp hk
    exact ⟨g', hg', (hc k g').1⟩
  · refine ⟨simplifyFunction known idle f, ?_, congrArg Header.name (hface f),
      congrArg (fun h => h.attributes.linkage) (hface f), congrArg Header.signature (hface f)⟩
    rw [Module.function?, hf, Table.get?_map]
    exact congrArg _ hk
  · refine ⟨c k g, ?_, (hc k g).2⟩
    rw [hg, Table.get?_mapWithKey, hk]
    rfl

theorem countIn_eq_zero {test : Instruction → Bool} (h : countIn m test = 0) {k : FuncId}
    (hf : m.function? k = some f) (ho : f.isOptimizable = true) :
    ∀ o ∈ f.instructions, test o.kind = false := by
  intro o hmem
  rw [countIn, length_eq_zero_iff, filter_eq_nil_iff] at h
  refine Bool.eq_false_iff.mpr (h o (mem_flatMap.mpr ⟨f, ?_, hmem⟩))
  exact mem_filter.mpr ⟨Table.mem_values_iff.mpr ⟨k, hf⟩, ho⟩

theorem simplify_sound (h : m.Sound refs strict free) (hm : simplify m = .ok (n, r)) :
    n.Sound refs strict free ∧ m.Exports n ∧ (r.modified = false → n = m) := by
  unfold simplify at hm
  cases hm
  refine (and_assoc.mp ⟨sound_of_simplified h (c := fun k g =>
    if ((neverStored m).filter m.globals.contains).contains k then { g with mutable := false }
    else g) (fun k g => ?_) rfl rfl, fun hr => ?_⟩)
  · split
    · exact ⟨rfl, rfl, rfl⟩
    · exact ⟨rfl, rfl, rfl⟩
  · split at hr
    · cases hr
    · next hcount =>
      split at hr
      · next hsettled =>
        have hglobals : (m.globals.mapWithKey fun k g =>
            if ((neverStored m).filter m.globals.contains).contains k then
              { g with mutable := false } else g) = m.globals := by
          refine Table.mapWithKey_eq_self fun k g _ => if_neg ?_
          rw [List.isEmpty_iff.mp hsettled]
          exact Bool.false_ne_true
        rw [hglobals] at hcount ⊢
        have hcount : ¬ 0 < countIn m (foldsLoad (foldable m)) +
          countIn m (isIdleStore (neverLoaded m)) := hcount
        have hfunctions : m.functions.map (simplifyFunction (foldable m) (neverLoaded m)) =
            m.functions := by
          refine Table.map_eq_self fun k f hf => simplifyFunction_eq_self fun ho o hmem => ?_
          exact ⟨countIn_eq_zero (by omega) hf ho o hmem, countIn_eq_zero (by omega) hf ho o hmem⟩
        rw [hfunctions]
      · cases hr

/-- A function calls another one or takes its address. -/
def Refers (m : Module) (k c : FuncId) : Prop := ∃ f, m.function? k = some f ∧ c ∈ f.functions

/-- The live functions are those that references lead to from a function that is not local. -/
theorem mem_liveFunctions : k ∈ liveFunctions m ↔
    ∃ f ∈ m.functionList, f.attributes.linkage.isLocal = false ∧
      Relation.ReflTransGen (Refers m) f.id k := by
  have hreach : k ∈ liveFunctions m ↔ ∃ s ∈ (m.functionList.filter fun f =>
      !f.attributes.linkage.isLocal).map Function.id, Relation.ReflTransGen (Refers m) s k := by
    refine mem_reach (t := m.functions) (c := fun _ => Function.functions) (fun _ => rfl) ?_
    rw [Module.functionList, Table.values, flatMap_map, Nat.add_comm]
  simp only [hreach, List.mem_map, exists_exists_and_eq_and]
  simp only [mem_filter, Bool.not_eq_true', and_assoc]

theorem liveFunctions_closed (h : ∀ k f, m.function? k = some f → f.id = k) :
    (∀ k f, m.function? k = some f → f.attributes.linkage.Exported → k ∈ liveFunctions m) ∧
      ∀ k ∈ liveFunctions m, ∀ f, m.function? k = some f → ∀ c ∈ f.functions,
        c ∈ liveFunctions m := by
  refine ⟨fun k f hf hl => ?_, fun k hk f hf c hc => ?_⟩
  · refine mem_liveFunctions.mpr ⟨f, Table.mem_values_iff.mpr ⟨k, hf⟩, ?_, h k f hf ▸ .refl⟩
    exact Linkage.exported_iff.mp hl
  · obtain ⟨g, hg, hl, hr⟩ := mem_liveFunctions.mp hk
    exact mem_liveFunctions.mpr ⟨g, hg, hl, hr.tail ⟨f, hf, hc⟩⟩

theorem prune_sound (h : m.Sound refs strict free) (hm : prune m = .ok (n, r)) :
    n.Sound refs strict free ∧ m.Exports n ∧ (r.modified = false → n = m) := by
  obtain ⟨hroots, hclosed⟩ := liveFunctions_closed h.functionKey
  unfold prune at hm
  dsimp only at hm
  split at hm
  · cases hm
    exact ⟨h, .refl _, fun _ => rfl⟩
  · cases hm
    have hfunction : ∀ k f, k ∈ liveFunctions m → m.function? k = some f →
        (m.functions.filter fun f _ => (liveFunctions m).contains f).get? k = some f := by
      intro k f hk hf
      rw [Table.get?_filter, filter_eq_some_iff]
      exact ⟨hf, contains_iff_mem.mpr hk⟩
    have hglobal : ∀ k g, k ∈ liveGlobals m → m.globals.get? k = some g →
        (m.globals.filter fun g _ => (liveGlobals m).contains g).get? k = some g := by
      intro k g hk hg
      rw [Table.get?_filter, filter_eq_some_iff]
      exact ⟨hg, contains_iff_mem.mpr hk⟩
    refine ⟨h.narrow (fun k f hk => ?_) fun k g hk => ?_, ⟨fun k f hf hl => ?_, fun k g hg hl => ?_⟩,
      fun hr => nomatch hr⟩
    · rw [Module.function?, Table.get?_filter, filter_eq_some_iff] at hk
      obtain ⟨hf, hlive⟩ := hk
      have hlive := contains_iff_mem.mp hlive
      refine ⟨f, hf, rfl, fun hd => hd, fun hc => hc, fun free' hlaw => hlaw.refer fun o ho => ?_⟩
      obtain ⟨hfun, hglob⟩ := hlaw.refers ho
      refine ⟨fun c hc hrefs => ?_, fun g hg hrefs => ?_⟩
      · obtain ⟨d, hd⟩ := Table.contains_iff.mp (hfun c hc hrefs)
        have hmem : c ∈ f.functions := mem_filterMap.mpr ⟨o, ho, hc⟩
        exact Table.contains_iff.mpr ⟨d, hfunction c d (hclosed k hlive f hf c hmem) hd⟩
      · obtain ⟨d, hd⟩ := Table.contains_iff.mp (hglob g hg hrefs)
        refine Table.contains_iff.mpr ⟨d, hglobal g d ?_ hd⟩
        refine mem_append_right _ (mem_flatMap.mpr ⟨k, hlive, ?_⟩)
        have hf : m.function? k = some f := hf
        rw [hf]
        exact mem_filterMap.mpr ⟨o, ho, hg⟩
    · rw [Table.get?_filter, filter_eq_some_iff] at hk
      exact ⟨g, hk.1, rfl⟩
    · exact ⟨f, hfunction k f (hroots k f hf hl) hf, rfl, rfl, rfl⟩
    · refine ⟨g, hglobal k g (mem_append_left _ (List.mem_map.mpr ⟨g, ?_, h.globalKey k g hg⟩))
        hg, rfl, rfl⟩
      refine mem_filter.mpr ⟨Table.mem_values_iff.mpr ⟨k, hg⟩, ?_⟩
      rw [Linkage.exported_iff.mp hl]
      rfl

end Globals

end SiteFusion
