import SiteFusion.Code.Document
import SiteFusion.Proofs.JsonTexts
import SiteFusion.Proofs.Tables

namespace SiteFusion

namespace Json

mutual

/-- How many brackets and braces are open at once at most. -/
def depth : Json → Nat
  | .array items _ => itemsDepth items + 1
  | .object members _ => membersDepth members + 1
  | _ => 0

def itemsDepth : List Json → Nat
  | [] => 0
  | j :: js => max j.depth (itemsDepth js)

def membersDepth : List (Literal × Json) → Nat
  | [] => 0
  | (_, j) :: ms => max j.depth (membersDepth ms)

end

variable {js : List Json} {n : Nat}

theorem itemsDepth_le : itemsDepth js ≤ n ↔ ∀ j ∈ js, j.depth ≤ n := by
  induction js with
  | nil => simp [itemsDepth]
  | cons j js ih => rw [itemsDepth, Nat.max_le, ih, List.forall_mem_cons]

theorem membersDepth_le {ms : List (Literal × Json)} :
    membersDepth ms ≤ n ↔ ∀ m ∈ ms, m.2.depth ≤ n := by
  induction ms with
  | nil => simp [membersDepth]
  | cons m ms ih => rw [membersDepth, Nat.max_le, ih, List.forall_mem_cons]

theorem membersDepth_append (ms ks : List (Literal × Json)) :
    membersDepth (ms ++ ks) = max (membersDepth ms) (membersDepth ks) := by
  induction ms with
  | nil => simp [membersDepth]
  | cons m ms ih => rw [List.cons_append, membersDepth, membersDepth, ih, Nat.max_assoc]

theorem depth_ofList (h : (ofList js).depth ≤ n) : ∃ k, n = k + 1 ∧ ∀ j ∈ js, j.depth ≤ k := by
  rw [ofList, depth] at h
  exact ⟨n - 1, by omega, itemsDepth_le.mp (by omega)⟩

theorem depth_ofMembers {ms : List (String × Json)} (h : (ofMembers ms).depth ≤ n) :
    ∃ k, n = k + 1 ∧ ∀ m ∈ ms, m.2.depth ≤ k := by
  rw [ofMembers, depth] at h
  refine ⟨n - 1, by omega, fun m hm => ?_⟩
  have hle := membersDepth_le.mp (Nat.le_sub_one_of_lt h)
  exact hle (.ofString m.1, m.2) (List.mem_map_of_mem hm)

end Json

namespace Shape

variable {α β δ ε κ ν : Type}

/-- A shape reads a value from its document, if it may go as deep as the document does. -/
structure Reads (shape : Shape α) (j : Json) (a : α) : Prop where
  plain : j.Plain
  read : ∀ n, j.depth ≤ n → shape n j = .ok a

namespace Reads

variable {j : Json} {name : String}

theorem mapShape {shape : Shape α} {a : α} (h : Reads shape j a) (f : α → β) :
    Reads (mapShape shape f) j (f a) :=
  ⟨h.plain, fun n hn => by rw [Shape.mapShape, h.read n hn]; rfl⟩

/-- Texts tell apart what can be read back from them. -/
theorem eq_of_render {shape : Shape α} {k : Json} {a b : α} (ha : Reads shape j a)
    (hb : Reads shape k b) (h : j.render = k.render) : a = b := by
  have hread := ha.plain.read_render
  rw [h, hb.plain.read_render] at hread
  obtain rfl : k = j := (Prod.mk.inj hread).1
  exact Except.ok.inj ((ha.read _ (Nat.le_refl _)).symm.trans (hb.read _ (Nat.le_refl _)))

theorem bool (b : Bool) : Reads Shape.bool (.bool b) b := ⟨.bool b, fun _ _ => rfl⟩

theorem string (s : String) : Reads Shape.string (.ofString s) s :=
  ⟨.string s, fun _ _ => Literal.text_ofString s⟩

theorem integer (low high i : Int) (hlow : low ≤ i) (hhigh : i ≤ high)
    (hleast : -9223372036854775808 ≤ i) (hmost : i < 18446744073709551616) :
    Reads (integer low high) (.ofInt i) i := by
  refine ⟨.int i, fun n _ => ?_⟩
  have hint : (Numeral.ofInt i).toInt? = some i := by
    by_cases hi : i < 0
    · have hsize : 0 < i.natAbs ∧ i.natAbs ≤ 9223372036854775808 := by omega
      simp only [Numeral.toInt?, Numeral.ofInt, hi, hsize, decide_true, and_self, ↓reduceIte]
      exact congrArg some (by omega)
    · have hsize : i.natAbs < 18446744073709551616 := by omega
      simp only [Numeral.toInt?, Numeral.ofInt, hi, hsize, decide_false, Bool.false_eq_true, ↓reduceIte]
      exact congrArg some (by omega)
  simp [Shape.integer, Json.ofInt, hint, hlow, hhigh]

theorem word32 (n : UInt32) : Reads Shape.word32 (word32Json n) n := by
  have hn := n.toNat_lt
  have h := integer 0 4294967295 n.toNat (by omega) (by omega) (by omega)
    (by omega)
  refine ⟨h.plain, fun k hk => ?_⟩
  rw [Shape.word32, word32Json, Json.ofNat]
  have hread := h.read k hk
  rw [Json.ofInt] at hread
  rw [hread]
  simp [Except.map]

theorem byte (b : UInt8) : Reads Shape.byte (.ofNat b.toNat) b := by
  have hb := b.toNat_lt
  have h := integer 0 255 b.toNat (by omega) (by omega) (by omega)
    (by omega)
  refine ⟨h.plain, fun k hk => ?_⟩
  have hread := h.read k hk
  rw [Json.ofInt] at hread
  rw [Shape.byte, Json.ofNat, hread]
  simp [Except.map]

theorem optional {shape : Shape α} {json : α → Json} {o : Option α}
    (h : ∀ a, o = some a → Reads shape (json a) a ∧ json a ≠ .null) :
    Reads (optional shape) (.ofOption json o) o := by
  cases o with
  | none => exact ⟨.null, fun _ _ => rfl⟩
  | some a =>
    obtain ⟨hread, hnull⟩ := h a rfl
    refine ⟨hread.plain, fun n hn => ?_⟩
    rw [Json.ofOption] at hn ⊢
    rw [Shape.optional]
    · rw [hread.read n hn]
      rfl
    · exact hnull
    · intro hbroken
      have hplain := hread.plain
      rw [hbroken] at hplain
      cases hplain

theorem items_eq {shape : Json → Except Defect α} {json : α → Json} {as : List α}
    (h : ∀ a ∈ as, shape (json a) = .ok a) : items shape (as.map json) = .ok as := by
  induction as with
  | nil => rfl
  | cons a as ih =>
    rw [List.map_cons, items, h a (by simp), ih fun b hb => h b (List.mem_cons_of_mem _ hb)]
    rfl

theorem list {shape : Shape α} {json : α → Json} (as : List α)
    (h : ∀ a ∈ as, Reads shape (json a) a) : Reads (list shape) (.ofList (as.map json)) as := by
  refine ⟨.list _ fun j hj => ?_, fun n hn => ?_⟩
  · obtain ⟨a, ha, rfl⟩ := List.mem_map.mp hj
    exact (h a ha).plain
  · obtain ⟨k, rfl, hk⟩ := Json.depth_ofList hn
    have hitems : items (shape k) (as.map json) = .ok as :=
      items_eq fun a ha => (h a ha).read k (hk _ (List.mem_map_of_mem ha))
    simp only [Shape.list, Json.ofList, Nat.add_eq_zero_iff, Nat.succ_ne_self, and_false,
      ↓reduceIte, Nat.add_one_sub_one, hitems]
    rfl

theorem exactItems_eq {shape : Json → Except Defect α} {json : α → Json} {as : List α}
    (h : ∀ a ∈ as, shape (json a) = .ok a) :
    exactItems shape none as.length (as.map json) = .ok as := by
  induction as with
  | nil => rfl
  | cons a as ih =>
    rw [List.map_cons, List.length_cons, exactItems, h a (by simp),
      ih fun b hb => h b (List.mem_cons_of_mem _ hb)]
    rfl

theorem vector {shape : Shape α} {json : α → Json} (as : List α)
    (h : ∀ a ∈ as, Reads shape (json a) a) :
    Reads (vector as.length shape) (.ofList (as.map json)) as := by
  refine ⟨(list as h).plain, fun n hn => ?_⟩
  obtain ⟨k, rfl, hk⟩ := Json.depth_ofList hn
  exact exactItems_eq fun a ha => (h a ha).read k (hk _ (List.mem_map_of_mem ha))

theorem pair {first : Shape α} {second : Shape β} {k : Json} {a : α} {b : β} (ha : Reads first j a)
    (hb : Reads second k b) : Reads (pair first second) (.ofList [j, k]) (a, b) := by
  refine ⟨.list _ fun i hi => ?_, fun n hn => ?_⟩
  · simp only [List.mem_cons, List.not_mem_nil, or_false] at hi
    rcases hi with rfl | rfl
    · exact ha.plain
    · exact hb.plain
  · obtain ⟨m, rfl, hm⟩ := Json.depth_ofList hn
    have hfirst := ha.read m (hm j (by simp))
    have hsecond := hb.read m (hm k (by simp))
    simp only [Shape.pair, Json.ofList, Nat.add_eq_zero_iff, Nat.succ_ne_self, and_false,
      ↓reduceIte, Nat.add_one_sub_one, hfirst, hsecond]
    rfl

theorem raw_numberText (n : UInt32) :
    (Literal.ofString (numberText n)).raw = Text.digitsOf n.toNat := by
  have hescape : ∀ c, Json.isDigit c = true → escapeChar c = [c] := by
    intro c hc
    have hother : ∀ d, Json.isDigit d = false → c ≠ d := by
      rintro d hd rfl
      rw [hd] at hc
      cases hc
    have hlow : 48 ≤ c.toNat := by
      rw [Json.isDigit, Bool.and_eq_true, decide_eq_true_eq] at hc
      exact hc.1
    have hback : c.toNat ≠ 8 := by omega
    have hfeed : c.toNat ≠ 12 := by omega
    have hcontrol : ¬ c.toNat < 32 := by omega
    simp only [escapeChar, hother '"' rfl, hother '\\' rfl, hback, hother '\t' rfl, hother '\n' rfl,
      hfeed, hother '\r' rfl, hcontrol, ↓reduceIte]
  have hdigits : ∀ cs : List Char, (∀ c ∈ cs, Json.isDigit c = true) →
      cs.flatMap escapeChar = cs := by
    intro cs hcs
    induction cs with
    | nil => rfl
    | cons c cs ih =>
      rw [List.flatMap_cons, hescape c (hcs c (by simp)),
        ih fun d hd => hcs d (List.mem_cons_of_mem _ hd)]
      rfl
  rw [numberText, Nat.toString_eq_ofList_toDigits, Literal.ofString, String.toList_ofList]
  exact hdigits _ fun c hc => Json.isDigit_of_mem_digits hc

theorem numericKey_numberText (n : UInt32) : numericKey (.ofString (numberText n)) = .ok n := by
  have hscan := Json.scanNumber_digits false n.toNat [] (by rintro c ⟨⟩)
  have hword := (word32 n).read 0 (Nat.le_refl 0)
  rw [List.append_nil] at hscan
  unfold numericKey
  rw [raw_numberText]
  cases hd : Text.digitsOf n.toNat with
  | nil => exact absurd hd Nat.toDigits_ne_nil
  | cons c cs =>
    have hdigit : Json.isDigit c = true := Json.isDigit_of_mem_digits (n := n.toNat) (by simp [hd])
    have hminus : c ≠ '-' := by
      rintro rfl
      revert hdigit
      decide
    rw [hd] at hscan
    simp only [hdigit, hminus, Bool.true_or, ↓reduceIte, hscan]
    have hnumber : Shape.word32 0 (.number ⟨false, n.toNat, [], none⟩) = .ok n := by
      have hsign : ¬ (n.toNat : Int) < 0 := by omega
      simpa [word32Json, Json.ofNat, Numeral.ofInt, hsign] using hword
    rw [hnumber]
    rfl

theorem entries_eq [DecidableEq κ] {key : UInt32 → κ} {index : κ → UInt32}
    (hkey : ∀ k, key (index k) = k) (shape : Json → Except Defect ν) (json : κ → ν → Json)
    (l : List (κ × ν)) (t : Table κ ν) (hl : ((t.entries ++ l).map Prod.fst).Nodup)
    (h : ∀ e ∈ l, shape (json e.1 e.2) = .ok e.2) :
    ∃ t', entries key shape t (l.map fun e => (.ofString (numberText (index e.1)), json e.1 e.2)) =
      .ok t' ∧ t'.entries = t.entries ++ l := by
  induction l generalizing t with
  | nil => exact ⟨t, rfl, (List.append_nil _).symm⟩
  | cons e l ih =>
    have hnone : t.get? e.1 = none := by
      rw [List.map_append, List.map_cons] at hl
      cases hget : t.get? e.1 with
      | none => rfl
      | some v =>
        have hapart := (List.nodup_append.mp hl).2.2 e.1 (Table.mem_keys_iff.mpr ⟨v, hget⟩)
        exact absurd rfl (hapart e.1 (by simp))
    have hinsert := Table.entries_insert_of_none hnone e.2
    obtain ⟨t', hread, hentries⟩ := ih (t.insert e.1 e.2) (by simpa [hinsert] using hl)
      fun d hd => h d (List.mem_cons_of_mem _ hd)
    refine ⟨t', ?_, by rw [hentries, hinsert, List.append_assoc]; rfl⟩
    rw [List.map_cons, entries, numericKey_numberText, h e (by simp)]
    rw [← hkey e.1] at hread
    exact hread

theorem table [DecidableEq κ] {key : UInt32 → κ} {index : κ → UInt32}
    (hkey : ∀ k, key (index k) = k) {shape : Shape ν} {json : κ → ν → Json} {t : Table κ ν}
    (h : ∀ e ∈ t.entries, Reads shape (json e.1 e.2) e.2) :
    Reads (table key shape) (tableJson index json t.entries) t := by
  refine ⟨.members _ fun m hm => ?_, fun n hn => ?_⟩
  · obtain ⟨e, he, rfl⟩ := List.mem_map.mp hm
    exact (h e he).plain
  · obtain ⟨k, rfl, hk⟩ := Json.depth_ofMembers hn
    obtain ⟨t', hread, hentries⟩ := entries_eq hkey (shape k) json t.entries .empty
      t.nodup fun e he => (h e he).read k (hk _ (List.mem_map_of_mem he))
    have ht : t' = t := by
      cases t
      cases t'
      simpa [Table.empty] using hentries
    simp only [Shape.table, tableJson, Json.ofMembers, List.map_map, Function.comp_def,
      Nat.add_eq_zero_iff, Nat.succ_ne_self, and_false, ↓reduceIte, Nat.add_one_sub_one, hread, ht]
    rfl

variable {variants : String → Option (Variant α)}

theorem plainName {a : α} (h : variants name = some (.plain a)) :
    Reads (choice variants) (.ofString name) a := by
  refine ⟨.string name, fun n _ => ?_⟩
  simp only [choice, Json.ofString, Literal.text_ofString, bind, Except.bind, h]

theorem tagged {s : Shape α} {a : α} (hv : variants name = some (.carrying s)) (h : Reads s j a) :
    Reads (choice variants) (tagged name j) a := by
  refine ⟨.members _ (by simpa using h.plain), fun n hn => ?_⟩
  obtain ⟨k, rfl, hk⟩ := Json.depth_ofMembers hn
  have hread := h.read k (hk (name, j) (by simp))
  simp only [choice, SiteFusion.tagged, Json.ofMembers, List.map_cons, List.map_nil,
    Nat.add_eq_zero_iff, Nat.succ_ne_self, and_false, ↓reduceIte, Nat.add_one_sub_one,
    Literal.text_ofString, bind, Except.bind, hv, hread]
  rfl

theorem operator {nameOf : α → String} {all : List α} (hnames : ∀ a b, nameOf a = nameOf b → a = b)
    {a : α} (h : a ∈ all) : Reads (operatorShape nameOf all) (.ofString (nameOf a)) a := by
  refine plainName ?_
  have hlookup : (all.map fun op => (nameOf op, op)).lookup (nameOf a) = some a := by
    induction all with
    | nil => cases h
    | cons b all ih =>
      by_cases hb : nameOf a = nameOf b
      · rw [List.map_cons, hb, List.lookup_cons_self, hnames a b hb]
      · rw [List.map_cons, List.lookup_cons, beq_eq_false_iff_ne.mpr hb]
        exact ih ((List.mem_cons.mp h).resolve_left fun hab => hb (congrArg nameOf hab))
  rw [hlookup]
  rfl

end Reads

namespace Fields

/-- The names of the fields. -/
def names (fs : Fields δ α) : List String := fs.list.map Field.name

/-- A structure is read from members: they are fields of it and, if no two fields have one name, the
drafts that come up as they are read end with one that is complete. -/
structure Takes (fs : Fields δ α) (ms : List (String × Json)) (a : α) : Prop where
  known : ∀ m ∈ ms, m.1 ∈ fs.names
  plain : ∀ m ∈ ms, m.2.Plain
  read : fs.names.Nodup → ∀ n, (∀ m ∈ ms, m.2.depth ≤ n) → ∃ d,
    namedFields fs.list n fs.draft (ms.map fun m => (.ofString m.1, m.2)) = .ok d ∧
      (∀ f ∈ fs.list, f.present d = true ∨ f.absence ≠ .refused) ∧ fs.finish d = some a

variable {absence : Absence} {name : String}

/-- Reading one member of a known name. -/
theorem namedFields_cons {fs : List (Field δ)} {f : Field δ}
    (hf : fs.find? (fun f => f.name = name) = some f) (n : Nat) (d : δ) (j : Json)
    (ms : List (Literal × Json)) :
    namedFields fs n d ((.ofString name, j) :: ms) =
      if f.present d then .error .mismatched
      else (f.read n j d).bind fun d => namedFields fs n d ms := by
  rw [namedFields]
  simp only [Literal.text_ofString, bind, Except.bind, hf]

theorem namedFields_append (fs : List (Field δ)) (n : Nat) (d : δ) (ms ks : List (Literal × Json)) :
    namedFields fs n d (ms ++ ks) =
      (namedFields fs n d ms).bind fun d => namedFields fs n d ks := by
  induction ms generalizing d with
  | nil => rfl
  | cons m ms ih =>
    obtain ⟨k, j⟩ := m
    rw [List.cons_append, namedFields, namedFields]
    cases k.text with
    | error e => rfl
    | ok name =>
      simp only [bind, Except.bind]
      cases fs.find? fun f => f.name = name with
      | none =>
        simp only
        cases skip j with
        | error e => rfl
        | ok _ => exact ih d
      | some f =>
        simp only
        split
        · rfl
        · cases f.read n j d with
          | error e => rfl
          | ok d => exact ih d

theorem exists_find? {fs : List (Field δ)} (h : name ∈ fs.map Field.name) :
    ∃ f, fs.find? (fun f => f.name = name) = some f := by
  obtain ⟨f, hf, hname⟩ := List.mem_map.mp h
  cases hfind : fs.find? fun f => f.name = name with
  | some g => exact ⟨g, rfl⟩
  | none => exact absurd (decide_eq_true hname) (List.find?_eq_none.mp hfind f hf)

theorem find?_onFirst {fs : List (Field δ)} {f : Field δ} (gs : List (Field ε))
    (h : fs.find? (fun f => f.name = name) = some f) :
    (fs.map onFirst ++ gs.map onSecond).find? (fun f : Field (δ × ε) => f.name = name) =
      some (onFirst f) := by
  rw [List.find?_append, List.find?_map]
  have hname : ((fun f : Field (δ × ε) => decide (f.name = name)) ∘ onFirst) =
      fun f : Field δ => decide (f.name = name) := rfl
  rw [hname, h]
  rfl

theorem find?_onSecond {fs : List (Field δ)} (gs : List (Field ε)) (h : name ∉ fs.map Field.name) :
    (fs.map onFirst ++ gs.map onSecond).find? (fun f : Field (δ × ε) => f.name = name) =
      (gs.find? fun f => f.name = name).map onSecond := by
  have hnone : (fs.map onFirst).find? (fun f : Field (δ × ε) => f.name = name) = none := by
    rw [List.find?_eq_none]
    intro g hg hname
    obtain ⟨f, hf, rfl⟩ := List.mem_map.mp hg
    exact h (List.mem_map.mpr ⟨f, hf, of_decide_eq_true hname⟩)
  rw [List.find?_append, hnone, List.find?_map]
  rfl

theorem namedFields_onFirst (fs : List (Field δ)) (gs : List (Field ε)) (n : Nat) (d : δ) (e : ε)
    (ms : List (String × Json)) (h : ∀ m ∈ ms, m.1 ∈ fs.map Field.name) :
    namedFields (fs.map onFirst ++ gs.map onSecond) n (d, e)
        (ms.map fun m => (.ofString m.1, m.2)) =
      (namedFields fs n d (ms.map fun m => (.ofString m.1, m.2))).map fun d => (d, e) := by
  induction ms generalizing d with
  | nil => rfl
  | cons m ms ih =>
    obtain ⟨f, hf⟩ := exists_find? (h m (by simp))
    rw [List.map_cons, namedFields_cons (find?_onFirst gs hf), namedFields_cons hf]
    by_cases hp : f.present d
    · rw [if_pos hp, if_pos (show (onFirst f).present (d, e) from hp)]
      rfl
    · rw [if_neg hp, if_neg (show ¬ (onFirst f).present (d, e) from hp)]
      simp only [onFirst]
      cases f.read n m.2 d with
      | error x => rfl
      | ok d => exact ih d fun k hk => h k (List.mem_cons_of_mem _ hk)

theorem namedFields_onSecond (fs : List (Field δ)) (gs : List (Field ε)) (n : Nat) (d : δ) (e : ε)
    (ms : List (String × Json)) (h : ∀ m ∈ ms, m.1 ∈ gs.map Field.name ∧ m.1 ∉ fs.map Field.name) :
    namedFields (fs.map onFirst ++ gs.map onSecond) n (d, e)
        (ms.map fun m => (.ofString m.1, m.2)) =
      (namedFields gs n e (ms.map fun m => (.ofString m.1, m.2))).map fun e => (d, e) := by
  induction ms generalizing e with
  | nil => rfl
  | cons m ms ih =>
    obtain ⟨hmem, hnot⟩ := h m (by simp)
    obtain ⟨g, hg⟩ := exists_find? hmem
    have hfind := find?_onSecond gs hnot
    rw [hg] at hfind
    rw [List.map_cons, namedFields_cons hfind, namedFields_cons hg]
    by_cases hp : g.present e
    · rw [if_pos hp, if_pos (show (onSecond g).present (d, e) from hp)]
      rfl
    · rw [if_neg hp, if_neg (show ¬ (onSecond g).present (d, e) from hp)]
      simp only [onSecond]
      cases g.read n m.2 e with
      | error x => rfl
      | ok e => exact ih e fun k hk => h k (List.mem_cons_of_mem _ hk)

@[simp]
theorem names_and (fs : Fields δ α) (gs : Fields ε β) :
    (fs.and gs).names = fs.names ++ gs.names := by
  simp [names, Fields.and, Function.comp_def, onFirst, onSecond]

namespace Takes

variable {fs : Fields δ α} {gs : Fields ε β} {ms ks : List (String × Json)} {a : α} {b : β}

theorem and (ha : Takes fs ms a) (hb : Takes gs ks b) : Takes (fs.and gs) (ms ++ ks) (a, b) := by
  refine ⟨fun m hm => ?_, fun m hm => ?_, fun hnodup n hn => ?_⟩
  · rw [names_and]
    exact List.mem_append.mpr ((List.mem_append.mp hm).imp (ha.known m) (hb.known m))
  · exact (List.mem_append.mp hm).elim (ha.plain m) (hb.plain m)
  · rw [names_and] at hnodup
    obtain ⟨hfs, hgs, hne⟩ := List.nodup_append.mp hnodup
    have hdisjoint : ∀ name ∈ gs.names, name ∉ fs.names := fun name hg hf => hne name hf name hg rfl
    obtain ⟨d, hd, hdone, hfinish⟩ := ha.read hfs n fun m hm => hn m (List.mem_append_left _ hm)
    obtain ⟨e, he, hedone, hefinish⟩ := hb.read hgs n fun m hm => hn m (List.mem_append_right _ hm)
    refine ⟨(d, e), ?_, ?_, ?_⟩
    · simp only [Fields.and, List.map_append]
      rw [namedFields_append, namedFields_onFirst _ _ _ _ _ _ ha.known, hd]
      simp only [Except.map, Except.bind]
      rw [namedFields_onSecond _ _ _ _ _ _ fun m hm =>
        ⟨hb.known m hm, hdisjoint _ (hb.known m hm)⟩, he]
      rfl
    · intro f hf
      rcases List.mem_append.mp hf with hf | hf
      · obtain ⟨g, hg, rfl⟩ := List.mem_map.mp hf
        exact hdone g hg
      · obtain ⟨g, hg, rfl⟩ := List.mem_map.mp hf
        exact hedone g hg
    · simp only [Fields.and, hfinish, hefinish]
      rfl

/-- The structure with some fields is read from an object of them. -/
theorem shape (h : Takes fs ms a) (f : α → β) (hnodup : fs.names.Nodup) :
    Reads (fs.shape f) (.ofMembers ms) (f a) := by
  refine ⟨.members _ h.plain, fun n hn => ?_⟩
  obtain ⟨k, rfl, hk⟩ := Json.depth_ofMembers hn
  obtain ⟨d, hd, hdone, hfinish⟩ := h.read hnodup k hk
  have hall : (fs.list.all fun f => f.present d || decide (f.absence ≠ .refused)) = true := by
    rw [List.all_eq_true]
    intro g hg
    rw [Bool.or_eq_true, decide_eq_true_eq]
    exact hdone g hg
  simp only [Fields.shape, record, Json.ofMembers, Nat.add_eq_zero_iff, Nat.succ_ne_self, and_false,
    ↓reduceIte, Nat.add_one_sub_one, hd, bind, Except.bind, close, hall, hfinish, Option.map_some]

end Takes

/-- A single field that is there. -/
theorem takes_field {shape : Shape α} {finish : Option α → Option β} {j : Json} {a : α} {b : β}
    (h : Reads shape j a) (hb : finish (some a) = some b) :
    Takes ⟨[field name shape Option.isSome (fun a _ => some a) absence], none, finish⟩
      [(name, j)] b := by
  refine ⟨by simp [names, field], by simpa using h.plain, fun _ n hn => ⟨some a, ?_, ?_, hb⟩⟩
  · have hread := h.read n (hn (name, j) (by simp))
    rw [List.map_singleton, namedFields_cons
      (f := field name shape Option.isSome (fun a _ => some a) absence) (by simp [field])]
    simp only [field, hread]
    rfl
  · simp [field]

/-- A single field that is left out. -/
theorem takes_nothing {shape : Shape α} {finish : Option α → Option β} {b : β}
    (ha : absence ≠ .refused) (hb : finish none = some b) :
    Takes ⟨[field name shape Option.isSome (fun a _ => some a) absence], none, finish⟩ [] b :=
  ⟨by simp, by simp, fun _ _ _ => ⟨none, rfl, by simp [field, ha], hb⟩⟩

section Single

variable {name : String} {shape : Shape α} {json : α → Json} {a : α} {j : Json}

theorem takes_required (h : Reads shape j a) : Takes (required name shape) [(name, j)] a :=
  takes_field h rfl

theorem takes_defaulted (b : α) (h : Reads shape j a) :
    Takes (defaulted name shape b) [(name, j)] a :=
  takes_field h rfl

variable (name) in
theorem takes_omissible {o : Option α}
    (h : ∀ a, o = some a → Reads shape (json a) a ∧ json a ≠ .null) :
    Takes (omissible name shape) [(name, .ofOption json o)] o :=
  takes_field (.optional h) (by simp)

variable (name) in
theorem takes_optionalMember {o : Option α}
    (h : ∀ a, o = some a → Reads shape (json a) a ∧ json a ≠ .null) :
    Takes (defaulted name (optional shape) none) (optionalMember name json o) o := by
  cases o with
  | none => exact takes_nothing (by decide) rfl
  | some a => exact takes_field (j := .ofOption json (some a)) (.optional h) rfl

@[simp]
theorem names_required : (required name shape).names = [name] := rfl

@[simp]
theorem names_defaulted (a : α) : (defaulted name shape a).names = [name] := rfl

@[simp]
theorem names_omissible : (omissible name shape).names = [name] := rfl

end Single

end Fields

end Shape

open Shape Shape.Fields

theorem Json.ofString_ne_null (s : String) : Json.ofString s ≠ .null := by
  intro h
  cases h

theorem Json.ofNat_ne_null (n : Nat) : Json.ofNat n ≠ .null := by
  intro h
  cases h

theorem Reg.reads_json (r : Reg) : Reads Reg.shape r.json r :=
  (Reads.word32 r.index).mapShape Reg.mk

theorem BlockId.reads_json (b : BlockId) : Reads BlockId.shape b.json b :=
  (Reads.word32 b.index).mapShape BlockId.mk

theorem OpId.reads_json (o : OpId) : Reads OpId.shape o.json o :=
  (Reads.word32 o.index).mapShape OpId.mk

theorem FuncId.reads_json (f : FuncId) : Reads FuncId.shape f.json f :=
  (Reads.word32 f.index).mapShape FuncId.mk

theorem GlobalId.reads_json (g : GlobalId) : Reads GlobalId.shape g.json g :=
  (Reads.word32 g.index).mapShape GlobalId.mk

theorem Ty.plain_json (t : Ty) : t.json.Plain := by
  induction t with
  | ptr t ih => exact .members _ (by simpa using ih)
  | _ => exact .string _

theorem Ty.reads_json (t : Ty) : Reads Ty.shape t.json t := by
  refine ⟨t.plain_json, fun n hn => ?_⟩
  induction t generalizing n with
  | ptr t ih =>
    obtain ⟨k, rfl, hk⟩ := Json.depth_ofMembers hn
    have hread := ih k (hk ("Ptr", t.json) (by simp))
    rw [Ty.shape]
    refine (Reads.tagged (s := fun _ j => (shape k j).map .ptr) rfl
      ⟨t.plain_json, fun _ _ => ?_⟩).read (k + 1) hn
    rw [hread]
    rfl
  | _ =>
    cases n with
    | zero => exact (Reads.plainName rfl).read 0 (Nat.zero_le 0)
    | succ n => exact (Reads.plainName rfl).read (n + 1) (Nat.zero_le _)

def Const.isFloat : Const → Bool
  | .f64 _ => true
  | _ => false

theorem Const.reads_int64 (v : Int64) : Reads Const.int64 (.ofInt v.toInt) v := by
  have hlow := v.le_toInt
  have hhigh := v.toInt_lt
  have hread := (Reads.integer (-9223372036854775808) 9223372036854775807 v.toInt (by omega)
    (by omega) (by omega) (by omega)).mapShape Int64.ofInt
  rwa [Int64.ofInt_toInt] at hread

theorem Const.reads_json {c : Const} (h : c.isFloat = false) : Reads Const.shape c.json c := by
  cases c with
  | undefined => exact .plainName rfl
  | null => exact .plainName rfl
  | bool b => exact .tagged rfl ((Reads.bool b).mapShape Const.bool)
  | i8 v =>
    have hlow := v.le_toInt
    have hhigh := v.toInt_lt
    have hread := (Reads.integer (-128) 127 v.toInt (by omega) (by omega)
      (by omega) (by omega)).mapShape fun i => Const.i8 (Int8.ofInt i)
    rw [Int8.ofInt_toInt] at hread
    exact .tagged rfl hread
  | i32 v =>
    have hlow := v.le_toInt
    have hhigh := v.toInt_lt
    have hread := (Reads.integer (-2147483648) 2147483647 v.toInt (by omega)
      (by omega) (by omega) (by omega)).mapShape fun i => Const.i32 (Int32.ofInt i)
    rw [Int32.ofInt_toInt] at hread
    exact .tagged rfl hread
  | i64 v => exact .tagged rfl ((Const.reads_int64 v).mapShape Const.i64)
  | f64 x => cases h

theorem Const.json_ne_null (c : Const) : c.json ≠ .null := by
  cases c <;> intro h <;> cases h

theorem Operand.reads_json {o : Operand} (h : ∀ c, o.const? = some c → c.isFloat = false) :
    Reads Operand.shape o.json o := by
  cases o with
  | reg r => exact .tagged rfl (r.reads_json.mapShape Operand.reg)
  | const c => exact .tagged rfl ((Const.reads_json (h c rfl)).mapShape Operand.const)

theorem Operand.json_ne_null (o : Operand) : o.json ≠ .null := by
  cases o <;> intro h <;> cases h

/-- The bytes of a number, the lowest first, add up to as much of it as they hold. -/
theorem TagValue.foldr_bytes (k n : Nat) :
    ((List.range k).map fun i => (n / Nat.pow 256 i % 256).toUInt8).foldr
      (fun (b : UInt8) n => n * 256 + b.toNat) 0 = n % Nat.pow 256 k := by
  induction k generalizing n with
  | zero => simp [Nat.mod_one]
  | succ k ih =>
    have hrest : ((List.range k).map Nat.succ).map (fun i => (n / Nat.pow 256 i % 256).toUInt8) =
        (List.range k).map fun i => (n / 256 / Nat.pow 256 i % 256).toUInt8 := by
      rw [List.map_map]
      apply List.map_congr_left
      intro i _
      have hpow : Nat.pow 256 (i + 1) = 256 * Nat.pow 256 i := Nat.mul_comm _ _
      rw [Function.comp_apply, hpow, Nat.div_div_eq_div_mul]
    have hpow : Nat.pow 256 (k + 1) = 256 * Nat.pow 256 k := Nat.mul_comm _ _
    have hbyte : (n / Nat.pow 256 0 % 256).toUInt8.toNat = n % 256 := by simp
    rw [List.range_succ_eq_map, List.map_cons, hrest, List.foldr_cons, ih, hpow, Nat.mod_mul, hbyte]
    omega

theorem TagValue.ofBytes_bytes (w : UInt64) : ofBytes (bytes w) = w := by
  have hw : w.toNat < Nat.pow 256 8 := w.toNat_lt
  rw [ofBytes, bytes, foldr_bytes, Nat.mod_eq_of_lt hw]
  simp

theorem TagValue.reads_json (v : TagValue) : Reads TagValue.shape v.json v := by
  cases v with
  | str s => exact .tagged rfl ((Reads.string s).mapShape TagValue.str)
  | word w =>
    have hread := (Reads.vector (bytes w) fun b _ => Reads.byte b).mapShape
      fun bs => TagValue.word (ofBytes bs)
    rw [ofBytes_bytes] at hread
    exact .tagged rfl hread

theorem Tag.reads_json (t : Tag) : Reads Tag.shape t.json t :=
  ((takes_required (.string t.name)).and (takes_required t.value.reads_json)).shape _ (by simp)

theorem Tags.reads_json (ts : Tags) : Reads Tags.shape ts.json ts :=
  (Reads.list _ fun t _ => t.reads_json).mapShape Tags.mk

theorem Operation.reads_json {κ : Type} {shape : Shape κ} {json : κ → Json} {o : Operation κ}
    (h : Reads shape (json o.kind) o.kind) : Reads (Operation.shape shape) (o.json json) o := by
  have htags : Takes (defaulted "tags" Tags.shape .empty)
      (if o.tags.isEmpty then [] else [("tags", o.tags.json)]) o.tags := by
    split
    · next he =>
      have hempty : o.tags = .empty := congrArg Tags.mk (List.isEmpty_iff.mp he)
      rw [hempty]
      exact takes_nothing (by decide) rfl
    · exact takes_defaulted _ o.tags.reads_json
  exact ((takes_required o.id.reads_json).and ((takes_required h).and htags)).shape _ (by simp)

/-- The constants that an instruction is made with. -/
def Instruction.constants (i : Instruction) : List Const :=
  (match i with
    | .const _ c => [c]
    | _ => []) ++ i.operands.filterMap Operand.const?

def Terminator.constants (t : Terminator) : List Const := t.operands.filterMap Operand.const?

def Phi.constants (p : Phi) : List Const := p.incoming.filterMap fun e => e.2.const?

def Block.constants (b : Block) : List Const :=
  b.phis.flatMap (fun p => p.kind.constants) ++
    b.instructions.flatMap (fun o => o.kind.constants) ++ b.terminator.kind.constants

def Function.constants (f : Function) : List Const := f.graph.blockList.flatMap Block.constants

/-- The constants in a module, those of global variables included. -/
def Module.constants (m : Module) : List Const :=
  m.functionList.flatMap Function.constants ++ m.globals.values.filterMap Global.initializer

namespace Instruction

@[simp]
theorem names_dest : dest.names = ["dest"] := rfl

@[simp]
theorem names_optionalDest : optionalDest.names = ["dest"] := rfl

@[simp]
theorem names_operand (name : String) : (operand name).names = [name] := rfl

@[simp]
theorem names_operandList (name : String) : (operandList name).names = [name] := rfl

theorem takes_optionalDest (d : Option Reg) : Takes optionalDest [("dest", destJson d)] d :=
  takes_omissible _ fun r _ => ⟨r.reads_json, Json.ofNat_ne_null _⟩

theorem takes_operandList {name : String} {os : List Operand}
    (h : ∀ o ∈ os, Reads Operand.shape o.json o) :
    Takes (operandList name) [(name, operandsJson os)] os :=
  takes_required (.list _ h)

end Instruction

theorem BinaryOp.reads_json (op : BinaryOp) : Reads Instruction.binaryOp (.ofString op.name) op :=
  .operator (by intro a b; cases a <;> cases b <;> decide) (by cases op <;> decide)

theorem UnaryOp.reads_json (op : UnaryOp) : Reads Instruction.unaryOp (.ofString op.name) op :=
  .operator (by intro a b; cases a <;> cases b <;> decide) (by cases op <;> decide)

theorem CompareOp.reads_json (op : CompareOp) :
    Reads Instruction.compareOp (.ofString op.name) op :=
  .operator (by intro a b; cases a <;> cases b <;> decide) (by cases op <;> decide)

theorem Instruction.reads_json {i : Instruction} (h : ∀ c ∈ i.constants, c.isFloat = false) :
    Reads Instruction.shape i.json i := by
  have hops : ∀ o ∈ i.operands, Reads Operand.shape o.json o := fun o ho =>
    Operand.reads_json fun c hc =>
      h c (List.mem_append_right _ (List.mem_filterMap.mpr ⟨o, ho, hc⟩))
  cases i with
  | const d c =>
    have hc := Const.reads_json (h c (by simp [constants]))
    exact .tagged rfl (((takes_required d.reads_json).and (takes_required hc)).shape _ (by simp))
  | copy d s =>
    have hs := hops s (by simp [operands])
    exact .tagged rfl (((takes_required d.reads_json).and (takes_required hs)).shape _ (by simp))
  | binary d op l r =>
    have hl := hops l (by simp [operands])
    have hr := hops r (by simp [operands])
    exact .tagged rfl (((takes_required d.reads_json).and ((takes_required op.reads_json).and
      ((takes_required hl).and (takes_required hr)))).shape _ (by simp))
  | unary d op o =>
    have ho := hops o (by simp [operands])
    exact .tagged rfl (((takes_required d.reads_json).and ((takes_required op.reads_json).and
      (takes_required ho))).shape _ (by simp))
  | compare d op l r =>
    have hl := hops l (by simp [operands])
    have hr := hops r (by simp [operands])
    exact .tagged rfl (((takes_required d.reads_json).and ((takes_required op.reads_json).and
      ((takes_required hl).and (takes_required hr)))).shape _ (by simp))
  | select d c a b =>
    have hc := hops c (by simp [operands])
    have ha := hops a (by simp [operands])
    have hb := hops b (by simp [operands])
    exact .tagged rfl (((takes_required d.reads_json).and ((takes_required hc).and
      ((takes_required ha).and (takes_required hb)))).shape _ (by simp))
  | alloca d t =>
    exact .tagged rfl (((takes_required d.reads_json).and
      (takes_required t.reads_json)).shape _ (by simp))
  | load d p t =>
    have hp := hops p (by simp [operands])
    exact .tagged rfl (((takes_required d.reads_json).and ((takes_required hp).and
      (takes_required t.reads_json))).shape _ (by simp))
  | store p v =>
    have hp := hops p (by simp [operands])
    have hv := hops v (by simp [operands])
    exact .tagged rfl (((takes_required hp).and (takes_required hv)).shape _ (by simp))
  | loadGlobal d g t =>
    exact .tagged rfl (((takes_required d.reads_json).and ((takes_required g.reads_json).and
      (takes_required t.reads_json))).shape _ (by simp))
  | storeGlobal g v =>
    have hv := hops v (by simp [operands])
    exact .tagged rfl (((takes_required g.reads_json).and (takes_required hv)).shape _ (by simp))
  | call d c args =>
    exact .tagged rfl (((takes_optionalDest d).and ((takes_required c.reads_json).and
      (takes_operandList hops))).shape _ (by simp))
  | callIndirect d p args =>
    have hp := hops p (by simp [operands])
    have hargs : ∀ o ∈ args, Reads Operand.shape o.json o := fun o ho =>
      hops o (by simp [operands, ho])
    exact .tagged rfl (((takes_optionalDest d).and ((takes_required hp).and
      (takes_operandList hargs))).shape _ (by simp))
  | inlineAsm d asm ins =>
    exact .tagged rfl (((takes_optionalDest d).and ((takes_required (.string asm)).and
      (takes_operandList hops))).shape _ (by simp))
  | functionRef d c =>
    exact .tagged rfl (((takes_required d.reads_json).and
      (takes_required c.reads_json)).shape _ (by simp))
  | marker => exact .plainName rfl

@[simp]
theorem Terminator.names_target (name : String) : (target name).names = [name] := rfl

theorem Terminator.reads_json {t : Terminator} (h : ∀ c ∈ t.constants, c.isFloat = false) :
    Reads Terminator.shape t.json t := by
  have hops : ∀ o ∈ t.operands, Reads Operand.shape o.json o := fun o ho =>
    Operand.reads_json fun c hc => h c (List.mem_filterMap.mpr ⟨o, ho, hc⟩)
  cases t with
  | branch b => exact .tagged rfl ((takes_required b.reads_json).shape _ (by simp))
  | condBranch c a b =>
    have hc := hops c (by simp [operands])
    exact .tagged rfl (((takes_required hc).and ((takes_required a.reads_json).and
      (takes_required b.reads_json))).shape _ (by simp))
  | switch v cases d =>
    have hv := hops v (by simp [operands])
    have hcases := Reads.list cases fun c _ =>
      Reads.pair (Const.reads_int64 c.1) c.2.reads_json
    exact .tagged rfl (((takes_required hv).and ((takes_required hcases).and
      (takes_required d.reads_json))).shape _ (by simp))
  | ret v =>
    exact .tagged rfl ((takes_omissible _ fun o ho =>
      ⟨hops o (by simp [operands, ho]), o.json_ne_null⟩).shape _ (by simp))
  | unreachable => exact .plainName rfl

theorem Phi.reads_json {p : Phi} (h : ∀ c ∈ p.constants, c.isFloat = false) :
    Reads Phi.shape p.json p := by
  have hin := Reads.list p.incoming fun e he => Reads.pair e.1.reads_json
    (Operand.reads_json fun c hc => h c (List.mem_filterMap.mpr ⟨e, he, hc⟩))
  exact ((takes_required p.dest.reads_json).and ((takes_required hin).and
    (takes_required p.ty.reads_json))).shape _ (by simp)

theorem Block.reads_json {b : Block} (h : ∀ c ∈ b.constants, c.isFloat = false) :
    Reads Block.shape b.json b := by
  simp only [constants, List.mem_append, List.mem_flatMap] at h
  have hphis := Reads.list b.phis fun p hp =>
    Operation.reads_json (Phi.reads_json fun c hc => h c (.inl (.inl ⟨p, hp, hc⟩)))
  have hinsts := Reads.list b.instructions fun o ho =>
    Operation.reads_json (Instruction.reads_json fun c hc => h c (.inl (.inr ⟨o, ho, hc⟩)))
  have hterm := Operation.reads_json (Terminator.reads_json fun c hc => h c (.inr hc))
  have hlabel := takes_optionalMember "label" (o := b.label) fun s _ =>
    ⟨.string s, Json.ofString_ne_null s⟩
  exact ((takes_required b.id.reads_json).and (hlabel.and ((takes_defaulted _ hphis).and
    ((takes_defaulted _ hinsts).and (takes_required hterm))))).shape _ (by simp)

theorem Graph.reads_json {g : Graph} (h : ∀ b ∈ g.blockList, ∀ c ∈ b.constants, c.isFloat = false) :
    Reads Graph.shape g.json g := by
  have hblocks : Reads (table BlockId.mk Block.shape)
      (tableJson BlockId.index (fun _ => Block.json) _) g.blocks := .table (fun _ => rfl) fun e he =>
    Block.reads_json (h e.2 (List.mem_map_of_mem he))
  exact ((takes_required hblocks).and ((takes_required g.entry.reads_json).and
    ((takes_required (.word32 g.nextBlock)).and
    (takes_required (.word32 g.nextOp))))).shape _ (by simp)

theorem Linkage.reads_json (l : Linkage) : Reads Linkage.shape l.json l :=
  .operator (by intro a b; cases a <;> cases b <;> decide) (by cases l <;> decide)

theorem InlineHint.reads_json (i : InlineHint) : Reads InlineHint.shape (.ofString i.name) i :=
  .operator (by intro a b; cases a <;> cases b <;> decide) (by cases i <;> decide)

theorem FunctionKind.reads_json (k : FunctionKind) :
    Reads FunctionKind.shape (.ofString k.name) k :=
  .operator (by intro a b; cases a <;> cases b <;> decide) (by cases k <;> decide)

theorem Attributes.reads_json (a : Attributes) : Reads Attributes.shape a.json a := by
  have hgc := takes_optionalMember "gc" (o := a.gc) fun s _ => ⟨.string s, Json.ofString_ne_null s⟩
  exact ((takes_required a.linkage.reads_json).and ((takes_required a.inline.reads_json).and
    ((takes_defaulted _ (.bool a.optimizeNone)).and hgc))).shape _ (by simp)

theorem Param.reads_json (p : Param) : Reads Param.shape p.json p :=
  ((takes_required (.string p.name)).and ((takes_required p.ty.reads_json).and
    (takes_required p.reg.reads_json))).shape _ (by simp)

theorem Signature.reads_json (s : Signature) : Reads Signature.shape s.json s := by
  have hparams := Reads.list s.params fun p _ => p.reads_json
  exact ((takes_required hparams).and ((takes_required s.result.reads_json).and
    (takes_defaulted _ (.bool s.varargs)))).shape _ (by simp)

namespace RegTypes

theorem perm_insertEntry {r : Reg} {ty : Ty} {l : List (Reg × Ty)} (h : r ∉ l.map Prod.fst) :
    (insertEntry r ty l).Perm ((r, ty) :: l) := by
  induction l with
  | nil => exact .refl _
  | cons e l ih =>
    rw [List.map_cons, List.mem_cons, not_or] at h
    obtain ⟨hne, hl⟩ := h
    rw [insertEntry]
    split
    · exact ((ih hl).cons e).trans (.swap _ _ l)
    · rw [if_neg (Ne.symm hne)]

/-- Whatever the order in which entries go in, they all come to be there. -/
theorem perm_foldl_insert (l : List (Reg × Ty)) (t : RegTypes)
    (h : ((t.entries ++ l).map Prod.fst).Nodup) :
    (l.foldl (fun t e => t.insert e.1 e.2) t).entries.Perm (t.entries ++ l) := by
  induction l generalizing t with
  | nil => simp
  | cons e l ih =>
    have hmid : (t.entries ++ e :: l).Perm (e :: (t.entries ++ l)) := List.perm_middle
    obtain ⟨hnew, hrest⟩ := List.nodup_cons.mp ((hmid.map Prod.fst).nodup_iff.mp h)
    have hinsert : (t.insert e.1 e.2).entries.Perm (e :: t.entries) := perm_insertEntry fun he =>
      hnew (by rw [List.map_append]; exact List.mem_append_left _ he)
    have happend := hinsert.append_right l
    have hnodup := ((happend.trans hmid.symm).map Prod.fst).nodup_iff.mpr h
    exact (ih _ hnodup).trans (happend.trans hmid.symm)

theorem nodup_entries (t : RegTypes) : (t.entries.map Prod.fst).Nodup := by
  rw [List.nodup_iff_pairwise_ne, List.pairwise_map]
  refine t.ascending.imp ?_
  intro a b hlt heq
  rw [heq] at hlt
  exact UInt32.lt_irrefl _ hlt

/-- Types that are listed in any order are put into order again. -/
theorem ofList_of_perm {l : List (Reg × Ty)} {t : RegTypes} (h : l.Perm t.entries) :
    ofList l = t := by
  have hperm : (ofList l).entries.Perm t.entries :=
    (perm_foldl_insert l empty ((h.map Prod.fst).nodup_iff.mpr t.nodup_entries)).trans h
  have hentries : (ofList l).entries = t.entries := by
    refine hperm.eq_of_pairwise ?_ (ofList l).ascending t.ascending
    intro a b _ _ hab hba
    exact absurd hba (UInt32.lt_asymm hab)
  cases t
  cases hl : ofList l
  simp_all

theorem reads_json {l : List (Reg × Ty)} {t : RegTypes} (h : l.Perm t.entries) :
    Reads Function.regTypesShape (tableJson Reg.index (fun _ => Ty.json) l) t := by
  have hnodup : (l.map Prod.fst).Nodup := (h.map Prod.fst).nodup_iff.mpr t.nodup_entries
  have htable : Reads (table Reg.mk Ty.shape) (tableJson Reg.index (fun _ => Ty.json) l)
      ⟨l, hnodup⟩ := .table (t := ⟨l, hnodup⟩) (fun _ => rfl) fun e _ => e.2.reads_json
  have hread := htable.mapShape fun t => ofList t.entries
  rwa [ofList_of_perm h] at hread

end RegTypes

theorem Function.reads_json {f : Function} {types : List (Reg × Ty)}
    (h : ∀ c ∈ f.constants, c.isFloat = false) (htypes : types.Perm f.regTypes.entries) :
    Reads Function.shape (f.jsonWith types) f := by
  have hgraph := Graph.reads_json fun b hb c hc => h c (List.mem_flatMap.mpr ⟨b, hb, hc⟩)
  have htrap := takes_optionalMember "unreachable_block" (o := f.trap) fun b _ =>
    ⟨b.reads_json, Json.ofNat_ne_null _⟩
  exact ((takes_required f.id.reads_json).and ((takes_required (.string f.name)).and
    ((takes_required f.signature.reads_json).and ((takes_required hgraph).and
    ((takes_defaulted _ (RegTypes.reads_json htypes)).and
    ((takes_defaulted _ f.attributes.reads_json).and ((takes_defaulted _ f.kind.reads_json).and
    (htrap.and (takes_required (.word32 f.nextReg)))))))))).shape _ (by simp)

theorem Global.reads_json {g : Global} (h : ∀ c, g.initializer = some c → c.isFloat = false) :
    Reads Global.shape g.json g := by
  have hinit := takes_omissible "initializer" (o := g.initializer) fun c hc =>
    ⟨Const.reads_json (h c hc), c.json_ne_null⟩
  exact ((takes_required g.id.reads_json).and ((takes_required (.string g.name)).and
    ((takes_required g.ty.reads_json).and (hinit.and ((takes_required (.bool g.mutable)).and
    (takes_required g.linkage.reads_json)))))).shape _ (by simp)

/-- The types of the registers of every function are listed, in any order. -/
def Module.Lists (m : Module) (types : FuncId → Function → List (Reg × Ty)) : Prop :=
  ∀ e ∈ m.functions.entries, (types e.1 e.2).Perm e.2.regTypes.entries

theorem Module.reads_json {m : Module} {types : FuncId → Function → List (Reg × Ty)}
    (h : ∀ c ∈ m.constants, c.isFloat = false) (htypes : m.Lists types) :
    Reads Module.shape (m.jsonWith types) m := by
  simp only [constants, List.mem_append, List.mem_flatMap, List.mem_filterMap] at h
  have hfunctions : Reads (table FuncId.mk Function.shape)
      (tableJson FuncId.index (fun k f => Function.jsonWith (types k f) f) _) m.functions :=
    .table (fun _ => rfl) fun e he => Function.reads_json (fun c hc =>
      h c (.inl ⟨e.2, List.mem_map_of_mem he, hc⟩)) (htypes e he)
  have hglobals : Reads (table GlobalId.mk Global.shape)
      (tableJson GlobalId.index (fun _ => Global.json) _) m.globals :=
    .table (fun _ => rfl) fun e he => Global.reads_json fun c hc =>
      h c (.inr ⟨e.2, List.mem_map_of_mem he, hc⟩)
  exact ((takes_required (.string m.name)).and ((takes_required hfunctions).and
    ((takes_defaulted _ hglobals).and ((takes_required (.word32 m.nextFunction)).and
    (takes_required (.word32 m.nextGlobal)))))).shape _ (by simp)

theorem Json.depth_tableJson_le {κ ν : Type} {key : κ → UInt32} {value value' : κ → ν → Json}
    {l k : List (κ × ν)}
    (h : ∀ e ∈ l, ∃ e' ∈ k, (value e.1 e.2).depth ≤ (value' e'.1 e'.2).depth) :
    (tableJson key value l).depth ≤ (tableJson key value' k).depth := by
  simp only [tableJson, ofMembers, depth, Nat.add_le_add_iff_right, membersDepth_le, List.map_map,
    List.forall_mem_map]
  intro e he
  obtain ⟨e', he', hle⟩ := h e he
  have hmem := List.mem_map_of_mem (f := (fun m : String × Json => (Literal.ofString m.1, m.2)) ∘
    fun e => (numberText (key e.1), value' e.1 e.2)) he'
  exact Nat.le_trans hle (membersDepth_le.mp (Nat.le_refl _) _ hmem)

theorem Function.depth_jsonWith {f : Function} {types : List (Reg × Ty)}
    (h : types.Perm f.regTypes.entries) : (f.jsonWith types).depth = f.json.depth := by
  have htypes : (tableJson Reg.index (fun _ => Ty.json) types).depth =
      (tableJson Reg.index (fun _ => Ty.json) f.regTypes.entries).depth :=
    Nat.le_antisymm (Json.depth_tableJson_le fun e he => ⟨e, h.mem_iff.mp he, Nat.le_refl _⟩)
      (Json.depth_tableJson_le fun e he => ⟨e, h.mem_iff.mpr he, Nat.le_refl _⟩)
  simp only [json, jsonWith, Json.ofMembers, Json.depth, List.map_append, List.map_cons,
    Json.membersDepth_append, Json.membersDepth, htypes]

namespace Module

/-- The order of the register types does not matter for how deep a document is. -/
theorem depth_jsonWith {m : Module} {types : FuncId → Function → List (Reg × Ty)}
    (h : m.Lists types) : (m.jsonWith types).depth = m.json.depth := by
  have hfunctions : (tableJson FuncId.index (fun k f => f.jsonWith (types k f))
        m.functions.entries).depth =
      (tableJson FuncId.index (fun _ f => f.jsonWith f.regTypes.entries)
        m.functions.entries).depth :=
    Nat.le_antisymm
      (Json.depth_tableJson_le fun e he => ⟨e, he, Nat.le_of_eq (Function.depth_jsonWith (h e he))⟩)
      (Json.depth_tableJson_le fun e he => ⟨e, he,
        Nat.le_of_eq (Function.depth_jsonWith (h e he)).symm⟩)
  simp only [json, jsonWith, Json.ofMembers, Json.depth, List.map_cons, Json.membersDepth,
    hfunctions]

theorem readText_of_reads {α : Type} {shape : Shape α} {j : Json} {a : α} {s : String}
    (h : Reads shape j a) (hd : j.depth ≤ Shape.depthLimit) (hs : Json.read s = (j, false)) :
    readText shape s = .ok a := by
  simp only [readText, hs, h.read Shape.depthLimit hd]
  rfl

/-- A module without floating point constants whose document is not too deep is read back as it was
written, from the text in one line and from the indented one, in whatever order the types of its
registers were listed. -/
theorem read_write (m : Module) (hfloat : ∀ c ∈ m.constants, c.isFloat = false)
    (hdepth : m.json.depth ≤ Shape.depthLimit) :
    (read m.write = .ok m ∧ read m.json.renderPretty = .ok m) ∧
      ∀ types, m.Lists types →
        read (m.jsonWith types).render = .ok m ∧ read (m.jsonWith types).renderPretty = .ok m := by
  have hany : ∀ types, m.Lists types →
      read (m.jsonWith types).render = .ok m ∧ read (m.jsonWith types).renderPretty = .ok m := by
    intro types htypes
    have hreads := reads_json hfloat htypes
    have hlimit := Nat.le_trans (Nat.le_of_eq (depth_jsonWith htypes)) hdepth
    exact ⟨readText_of_reads hreads hlimit hreads.plain.read_render,
      readText_of_reads hreads hlimit hreads.plain.read_renderPretty⟩
  exact ⟨hany _ fun e _ => .refl _, hany⟩

/-- A module with letters of several scripts in its names, numbers at the ends of their ranges, tags
of both kinds, a label, a global variable and two functions with several registers. -/
def inscription : Module :=
  let load : Operation Instruction :=
    ⟨⟨4294967295⟩, .load ⟨1⟩ (.reg ⟨0⟩) (.ptr (.ptr .i8)), ⟨[⟨"σ", .word 18446744073709551615⟩]⟩⟩
  let block : Block :=
    ⟨⟨0⟩, some "début \"\n", [], [load], ⟨⟨0⟩, .ret (some (.const (.i64 Int64.minValue))),
      ⟨[⟨"", .str "\u0000𝄞"⟩]⟩⟩⟩
  let f : Function :=
    { Function.create ⟨7⟩ "λ" [("p", .ptr (.ptr (.ptr .i8))), ("q", .f64)] .i64 with
      graph := ⟨.ofList [(⟨0⟩, block)], ⟨0⟩, 1, 4294967295⟩
      regTypes := .ofList [(⟨0⟩, .ptr (.ptr (.ptr .i8))), (⟨1⟩, .f64), (⟨4294967295⟩, .i8)] }
  let h : Function := Function.create ⟨3⟩ "κ" [("a", .i32), ("b", .ptr .bool), ("c", .fnPtr)] .void
  let g : Global := ⟨⟨0⟩, "∅", .i32, some (.i32 Int32.minValue), true, .external⟩
  { create "μ/ν" with functions := .ofList [(⟨7⟩, f), (⟨3⟩, h)], globals := .ofList [(⟨0⟩, g)] }

/-- The register types of one function are listed backwards, those of the other one begin with the
second. -/
def shuffle (k : FuncId) (f : Function) : List (Reg × Ty) :=
  if k.index = 7 then f.regTypes.entries.reverse else f.regTypes.entries.rotateLeft

theorem read_write_inscription :
    (read inscription.write = .ok inscription ∧
      read inscription.json.renderPretty = .ok inscription) ∧
    (∀ e ∈ inscription.functions.entries, shuffle e.1 e.2 ≠ e.2.regTypes.entries) ∧
      read (inscription.jsonWith shuffle).render = .ok inscription ∧
      read (inscription.jsonWith shuffle).renderPretty = .ok inscription := by
  have hfloat : ∀ c ∈ inscription.constants, c.isFloat = false := by decide
  have hlists : inscription.Lists shuffle := by
    unfold Lists
    decide
  obtain ⟨hwrite, hany⟩ := inscription.read_write hfloat (by decide)
  exact ⟨hwrite, by decide, hany shuffle hlists⟩

end Module

end SiteFusion
