import Mathlib
import SiteFusion.Edit
import SiteFusion.Pipeline.Grammar

namespace SiteFusion.Pipeline

open List Option

inductive Token
  | name (s : String)
  | mark (c : Char)

def marks : List Char := ['(', ')', ',']

/-- The tokens of a text. Blanks may stand before every token and at the end, and a name goes as far
as it can. -/
inductive Reads : List Char → List Token → Prop
  | done : Reads [] []
  | blank {c : Char} {cs : List Char} {ts : List Token} (hc : Text.isBlank c = true)
      (h : Reads cs ts) : Reads (c :: cs) ts
  | mark {c : Char} {cs : List Char} {ts : List Token} (hc : c ∈ marks) (h : Reads cs ts) :
      Reads (c :: cs) (.mark c :: ts)
  | name {w cs : List Char} {ts : List Token} (hne : w ≠ [])
      (hw : ∀ c ∈ w, Cursor.isNameChar c = true)
      (hend : ∀ c, cs.head? = some c → Cursor.isNameChar c = false) (h : Reads cs ts) :
      Reads (w ++ cs) (.name (String.ofList w) :: ts)

variable {α : Type} {c : Char} {cs : List Char} {ts us : List Token} {p q : Cursor}

theorem toNat_of_isNameChar (h : Cursor.isNameChar c = true) : 44 < c.toNat ∧ c.toNat < 123 := by
  simp only [Cursor.isNameChar, Char.isAlphanum, Char.isAlpha, Char.isUpper, Char.isLower,
    Char.isDigit, Bool.or_eq_true, Bool.and_eq_true, decide_eq_true_eq, UInt32.le_iff_toNat_le] at h
  have hn : c.toNat = c.val.toNat := rfl
  rcases h with (h | rfl) | rfl
  · simp at h
    omega
  · decide
  · decide

theorem sum_utf8Size {w : List Char} (hw : ∀ c ∈ w, Cursor.isNameChar c = true) :
    (w.map Char.utf8Size).sum = w.length := by
  induction w with
  | nil => rfl
  | cons c w ih =>
    have hn := toNat_of_isNameChar (hw c (mem_cons_self ..))
    have hc : c.utf8Size = 1 := Char.utf8Size_eq_one_iff.mpr <|
      UInt32.le_iff_toNat_le.mpr (Nat.le_trans (Nat.le_of_lt hn.2) (by decide))
    rw [map_cons, sum_cons, hc, ih fun d hd => hw d (mem_cons_of_mem _ hd),
      length_cons, Nat.add_comm]

theorem isNameChar_of_isBlank (h : Text.isBlank c = true) : Cursor.isNameChar c = false := by
  refine Bool.eq_false_iff.mpr fun hc => ?_
  have hn := toNat_of_isNameChar hc
  simp [Text.isBlank, Text.blankRanges] at h
  omega

theorem isBlank_of_mem_marks (h : c ∈ marks) : Text.isBlank c = false := by
  simp only [marks, mem_cons, not_mem_nil, or_false] at h
  rcases h with rfl | rfl | rfl <;> decide

theorem isNameChar_of_mem_marks (h : c ∈ marks) : Cursor.isNameChar c = false := by
  simp only [marks, mem_cons, not_mem_nil, or_false] at h
  rcases h with rfl | rfl | rfl <;> decide

theorem Reads.length_le (h : Reads cs ts) : ts.length ≤ cs.length := by
  induction h with
  | done => exact Nat.le_refl _
  | blank _ _ ih => exact Nat.le_succ_of_le ih
  | mark _ _ ih => exact Nat.succ_le_succ ih
  | name hne _ _ _ ih =>
    have hpos := length_pos_iff.mpr hne
    simp only [length_cons, length_append]
    omega

namespace Cursor

theorem reads_cases (h : Reads cs ts) (n : Nat) : Reads (skip n cs).rest ts ∧
    ((skip n cs).rest = [] ∧ ts = [] ∨
      (∃ c rest us, (skip n cs).rest = c :: rest ∧ ts = .mark c :: us ∧ Reads rest us) ∨
      ∃ w rest us, (skip n cs).rest = w ++ rest ∧ ts = .name (String.ofList w) :: us ∧ w ≠ [] ∧
        (∀ c ∈ w, isNameChar c = true) ∧ (∀ c, rest.head? = some c → isNameChar c = false) ∧
        Reads rest us) := by
  induction h generalizing n with
  | done => exact ⟨.done, .inl ⟨rfl, rfl⟩⟩
  | blank hc _ ih =>
    rw [skip, if_pos hc]
    exact ih _
  | mark hc h =>
    rw [skip, if_neg (Bool.eq_false_iff.mp (isBlank_of_mem_marks hc))]
    exact ⟨.mark hc h, .inr (.inl ⟨_, _, _, rfl, rfl, h⟩)⟩
  | @name w cs us hne hw hend h =>
    have hskip : (skip n (w ++ cs)).rest = w ++ cs := by
      obtain ⟨d, w, rfl⟩ := exists_cons_of_ne_nil hne
      have hd : Text.isBlank d ≠ true := fun hb => by
        cases (isNameChar_of_isBlank hb).symm.trans (hw d (mem_cons_self ..))
      rw [cons_append, skip, if_neg hd]
    rw [hskip]
    exact ⟨.name hne hw hend h, .inr (.inr ⟨w, cs, us, rfl, rfl, hne, hw, hend, h⟩)⟩

theorem reads_of_skip (n : Nat) (cs : List Char) (h : Reads (skip n cs).rest ts) : Reads cs ts := by
  induction cs generalizing n with
  | nil => exact h
  | cons c cs ih =>
    rw [skip] at h
    split at h
    · next hc => exact .blank hc (ih _ h)
    · exact h

theorem skipBlank_nil (h : Reads p.rest []) : p.skipBlank.rest = [] := by
  rcases (reads_cases h p.offset).2 with ⟨hr, -⟩ | ⟨_, _, _, -, hts, -⟩ | ⟨_, _, _, -, hts, -⟩
  · exact hr
  · cases hts
  · cases hts

theorem eat_cases (p : Cursor) (c : Char) :
    (∃ rest, p.skipBlank.rest = c :: rest ∧
        p.eat c = (true, ⟨rest, p.skipBlank.offset + c.utf8Size⟩)) ∨
      (∀ rest, p.skipBlank.rest ≠ c :: rest) ∧ p.eat c = (false, p.skipBlank) := by
  rw [eat]
  split
  · next d rest hr =>
    rw [hr]
    by_cases hd : d = c
    · subst hd
      exact .inl ⟨rest, rfl, if_pos rfl⟩
    · exact .inr ⟨fun r hr => hd (List.cons.inj hr).1, if_neg hd⟩
  · next hr => exact .inr ⟨fun r h => (nomatch hr ▸ h), rfl⟩

theorem eat_of_reads (h : Reads p.rest (.mark c :: ts)) :
    ∃ q, p.eat c = (true, q) ∧ Reads q.rest ts := by
  rcases (reads_cases h p.offset).2 with ⟨-, hts⟩ | ⟨d, rest, us, hr, hts, h⟩ | ⟨_, _, _, -, hts, -⟩
  · cases hts
  · cases hts
    rcases p.eat_cases c with ⟨rest', hr', he⟩ | ⟨hne, -⟩
    · cases hr.symm.trans hr'
      exact ⟨_, he, h⟩
    · exact absurd hr (hne rest)
  · cases hts

theorem not_eat_of_reads (hc : c ∈ marks) (h : Reads p.rest ts) (hts : ∀ us, ts ≠ .mark c :: us) :
    ∃ q, p.eat c = (false, q) ∧ Reads q.rest ts := by
  obtain ⟨hs, hcases⟩ := reads_cases h p.offset
  rcases p.eat_cases c with ⟨rest, hr, -⟩ | ⟨-, he⟩
  · rw [show skip p.offset p.rest = p.skipBlank from rfl, hr] at hcases
    rcases hcases with ⟨hx, -⟩ | ⟨d, _, us, hx, rfl, -⟩ | ⟨w, _, _, hx, -, hne, hw, -⟩
    · cases hx
    · cases hx
      exact absurd rfl (hts us)
    · obtain ⟨d, w, rfl⟩ := exists_cons_of_ne_nil hne
      cases hx
      cases (isNameChar_of_mem_marks hc).symm.trans (hw c (mem_cons_self ..))
  · exact ⟨_, he, hs⟩

theorem reads_of_eat (hc : c ∈ marks) (h : p.eat c = (true, q)) (hq : Reads q.rest ts) :
    Reads p.rest (.mark c :: ts) := by
  rcases p.eat_cases c with ⟨rest, hr, he⟩ | ⟨-, he⟩
  · cases h.symm.trans he
    refine reads_of_skip p.offset _ ?_
    rw [← skipBlank, hr]
    exact .mark hc hq
  · cases h.symm.trans he

theorem reads_of_not_eat (h : p.eat c = (false, q)) (hq : Reads q.rest ts) : Reads p.rest ts := by
  rcases p.eat_cases c with ⟨rest, -, he⟩ | ⟨-, he⟩
  · cases h.symm.trans he
  · cases h.symm.trans he
    exact reads_of_skip _ _ hq

theorem expect_of_reads (h : Reads p.rest (.mark c :: ts)) :
    ∃ q, p.expect c = .ok q ∧ Reads q.rest ts := by
  obtain ⟨q, he, hq⟩ := eat_of_reads h
  refine ⟨q, ?_, hq⟩
  rw [expect, he]

theorem reads_of_expect (hc : c ∈ marks) (h : p.expect c = .ok q) (hq : Reads q.rest ts) :
    Reads p.rest (.mark c :: ts) := by
  rw [expect] at h
  split at h
  · next p' he =>
    cases h
    exact reads_of_eat hc he hq
  · cases h

theorem name_of_reads {w : String} (h : Reads p.rest (.name w :: ts)) :
    ∃ n q, p.name = .ok (w, n, q) ∧ Reads q.rest ts := by
  rcases (reads_cases h p.offset).2 with ⟨-, hts⟩ | ⟨_, _, _, -, hts, -⟩ |
    ⟨v, rest, us, hr, hts, hne, hv, hend, h⟩
  · cases hts
  · cases hts
  · cases hts
    have hstop : rest.takeWhile isNameChar = [] ∧ rest.dropWhile isNameChar = rest := by
      cases rest with
      | nil => exact ⟨rfl, rfl⟩
      | cons d rest => simp [hend d rfl]
    refine ⟨p.skipBlank.offset, ⟨rest, p.skipBlank.offset + v.length⟩, ?_, h⟩
    rw [name, skipBlank, hr, takeWhile_append_of_pos hv, dropWhile_append_of_pos hv, hstop.1,
      hstop.2]
    simp [hne]

theorem reads_of_name {w : String} {n : Nat} (h : p.name = .ok (w, n, q)) (hq : Reads q.rest ts) :
    Reads p.rest (.name w :: ts) := by
  rw [name] at h
  split at h
  · cases h
  · next hne =>
    cases h
    have hr := Reads.name (by simpa using hne) (fun c hc => mem_takeWhile_imp hc) ?_ hq
    · rw [takeWhile_append_dropWhile] at hr
      exact reads_of_skip _ _ hr
    · intro c hc
      have hd := head?_dropWhile_not isNameChar p.skipBlank.rest
      rwa [hc] at hd

/-- A place in the text `cs`, counted in bytes of the characters before it. -/
def In (p : Cursor) (cs : List Char) : Prop :=
  ∃ before, before ++ p.rest = cs ∧ (before.map Char.utf8Size).sum = p.offset

theorem In.advance {w rest : List Char} (h : p.In cs) (hr : p.rest = w ++ rest) :
    In ⟨rest, p.offset + (w.map Char.utf8Size).sum⟩ cs := by
  obtain ⟨before, hcs, hn⟩ := h
  refine ⟨before ++ w, ?_, ?_⟩
  · rw [append_assoc, ← hr, hcs]
  · rw [map_append, sum_append, hn]

theorem In.skip {n : Nat} {rest : List Char} (h : In ⟨rest, n⟩ cs) : (skip n rest).In cs := by
  induction rest generalizing n with
  | nil => exact h
  | cons c rest ih =>
    rw [Cursor.skip]
    split
    · exact ih (by simpa using h.advance (w := [c]) rfl)
    · exact h

theorem In.skipBlank (h : p.In cs) : p.skipBlank.In cs := In.skip h

theorem In.eat (h : p.In cs) (c : Char) : (p.eat c).2.In cs := by
  rcases p.eat_cases c with ⟨rest, hr, he⟩ | ⟨-, he⟩
  · rw [he]
    simpa using h.skipBlank.advance (w := [c]) hr
  · rw [he]
    exact h.skipBlank

end Cursor

/-- The result is as it should be, or there is a fault at a place in the text. -/
def Placed {β : Type} (cs : List Char) (P : β → Prop) (x : Except Fault β) : Prop :=
  (∀ b, x = .ok b → P b) ∧ ∀ e, x = .error e → ∃ q : Cursor, q.In cs ∧ q.offset = e.offset

section
variable {β γ : Type} {P : β → Prop} {Q : γ → Prop} {b : β} {e : Fault}

theorem Placed.ok (h : P b) : Placed cs P (.ok b) := by
  refine ⟨?_, ?_⟩
  · rintro _ ⟨⟩
    exact h
  · rintro _ ⟨⟩

theorem Placed.error (h : ∃ q : Cursor, q.In cs ∧ q.offset = e.offset) :
    Placed cs P (.error e) := by
  refine ⟨?_, ?_⟩
  · rintro _ ⟨⟩
  · rintro _ ⟨⟩
    exact h

theorem Placed.bind {x : Except Fault β} {f : β → Except Fault γ} (hx : Placed cs P x)
    (hf : ∀ b, P b → Placed cs Q (f b)) : Placed cs Q (x >>= f) := by
  cases x with
  | error e => exact .error (hx.2 e rfl)
  | ok b => exact hf b (hx.1 b rfl)

end

theorem Cursor.In.expect (h : p.In cs) (c : Char) : Placed cs (fun q => q.In cs) (p.expect c) := by
  have he := h.eat c
  rw [Cursor.expect]
  split
  · next hq =>
    rw [hq] at he
    exact .ok he
  · next hq =>
    rw [hq] at he
    exact .error ⟨_, he, rfl⟩

theorem Cursor.In.name (h : p.In cs) : Placed cs
    (fun x => (∃ q : Cursor, q.In cs ∧ q.offset = x.2.1) ∧ x.2.2.In cs) p.name := by
  rw [Cursor.name]
  split
  · exact .error ⟨_, h.skipBlank, rfl⟩
  · refine .ok ⟨⟨_, h.skipBlank, rfl⟩, ?_⟩
    have hsize := sum_utf8Size fun c hc =>
      mem_takeWhile_imp (p := isNameChar) (l := p.skipBlank.rest) hc
    rw [← hsize]
    exact h.skipBlank.advance takeWhile_append_dropWhile.symm

/-- One item or more, with commas between them. -/
inductive Items (Item : List Token → List α → Prop) : List Token → List α → Prop
  | one {ts : List Token} {as : List α} (h : Item ts as) : Items Item ts as
  | more {ts us : List Token} {as bs : List α} (h : Item ts as) (hs : Items Item us bs) :
      Items Item (ts ++ .mark ',' :: us) (as ++ bs)

/-- An item inside `function(...)`, and the passes that it stands for. -/
inductive FunctionItem : List Token → List FunctionPass → Prop
  | pass (p : FunctionPass) : FunctionItem [.name p.name] [p]
  | group {ts : List Token} {ps : List FunctionPass} (h : Items FunctionItem ts ps) :
      FunctionItem (.name "function" :: .mark '(' :: (ts ++ [.mark ')'])) ps

/-- An item outside `function(...)`, and the steps that it stands for. -/
inductive ModuleItem : List Token → List Step → Prop
  | pass (p : Pass) : ModuleItem [.name p.name] [.pass p]
  | functions {ts : List Token} {ps : List FunctionPass} (h : Items FunctionItem ts ps) :
      ModuleItem (.name "function" :: .mark '(' :: (ts ++ [.mark ')'])) [.functions ps]
  | group {ts : List Token} {ss : List Step} (h : Items ModuleItem ts ss) :
      ModuleItem (.name "module" :: .mark '(' :: (ts ++ [.mark ')'])) ss

/-- The tokens do not go on with one of these marks. -/
def Stops (cs : List Char) (ts : List Token) : Prop := ∀ c ∈ cs, ∀ us, ts ≠ .mark c :: us

/-- The text that a reader takes is in a language, and texts of it are taken if they have less than
`n` tokens and stop where they should. -/
structure Accepts (n : Nat) (stops : List Char) (r : Reader α) (G : List Token → List α → Prop) :
    Prop where
  sound : ∀ {p q as}, r p = .ok (as, q) →
    ∃ ts, G ts as ∧ ∀ us, Reads q.rest us → Reads p.rest (ts ++ us)
  complete : ∀ {p ts us as}, G ts as → ts.length < n → Stops stops us → Reads p.rest (ts ++ us) →
    ∃ q, r p = .ok (as, q) ∧ Reads q.rest us
  placed : ∀ {cs p}, Cursor.In p cs → Placed cs (fun x => x.2.In cs) (r p)

section
variable {n : Nat} {first list : Reader α} {G : List Token → List α → Prop}

theorem Accepts.congr {stops : List Char} {G' : List Token → List α → Prop}
    (h : Accepts n stops list G) (hG : ∀ ts as, G ts as ↔ G' ts as) : Accepts n stops list G' := by
  rwa [← show G = G' from funext fun ts => funext fun as => propext (hG ts as)]

theorem accepts_group (h : Accepts n ['(', ','] list G) :
    Accepts (n + 1) [] (group list) fun ts as => ∃ us, ts = us ++ [.mark ')'] ∧ G us as where
  sound := by
    intro p q as hg
    obtain ⟨⟨found, p'⟩, hl, hg⟩ := bind_eq_ok.mp hg
    obtain ⟨q', he, hg⟩ := bind_eq_ok.mp hg
    cases hg
    obtain ⟨ts, hts, hr⟩ := h.sound hl
    refine ⟨ts ++ [.mark ')'], ⟨ts, rfl, hts⟩, fun us hus => ?_⟩
    rw [append_assoc]
    exact hr _ (Cursor.reads_of_expect (by decide) he hus)
  complete := by
    rintro p _ us as ⟨ts, rfl, hts⟩ hn - hr
    have hlen : ts.length < n := by
      rw [length_append] at hn
      exact Nat.lt_of_succ_lt_succ hn
    rw [append_assoc] at hr
    obtain ⟨q, hq, hr⟩ := h.complete hts hlen (by simp [Stops]) hr
    obtain ⟨q', he, hr⟩ := Cursor.expect_of_reads hr
    exact ⟨q', bind_eq_ok.mpr ⟨_, hq, bind_eq_ok.mpr ⟨_, he, rfl⟩⟩, hr⟩
  placed := fun hp => (h.placed hp).bind fun x hx => (hx.expect ')').bind fun q hq => .ok hq

theorem accepts_items (hi : Accepts (n + 1) ['('] first G)
    (hl : Accepts n ['(', ','] list (Items G)) :
    Accepts (n + 1) ['(', ','] (items first list) (Items G) where
  sound := by
    intro p q as h
    obtain ⟨⟨found, p'⟩, hp, h⟩ := bind_eq_ok.mp h
    obtain ⟨ts, hts, hr⟩ := hi.sound hp
    dsimp only at h
    split at h
    · next p₁ he =>
      obtain ⟨⟨more, q'⟩, hq, h⟩ := bind_eq_ok.mp h
      cases h
      obtain ⟨us, hus, hs⟩ := hl.sound hq
      refine ⟨ts ++ .mark ',' :: us, .more hts hus, fun vs hvs => ?_⟩
      rw [append_assoc]
      exact hr _ (Cursor.reads_of_eat (by decide) he (hs vs hvs))
    · next he =>
      cases h
      exact ⟨ts, .one hts, fun us hus => hr us (Cursor.reads_of_not_eat he hus)⟩
  complete := by
    intro p ts us as hts hn hstop hr
    cases hts with
    | one h =>
      obtain ⟨q, hq, hr⟩ := hi.complete h hn (fun c hc => hstop c (by simp_all)) hr
      obtain ⟨q', he, hr⟩ := Cursor.not_eat_of_reads (by decide) hr (hstop ',' (by decide))
      refine ⟨q', bind_eq_ok.mpr ⟨_, hq, ?_⟩, hr⟩
      dsimp only
      rw [he]
      rfl
    | more h hs =>
      rw [length_append, length_cons] at hn
      rw [append_assoc] at hr
      obtain ⟨q, hq, hr⟩ := hi.complete h (by omega) (by simp [Stops]) hr
      obtain ⟨q', he, hr⟩ := Cursor.eat_of_reads hr
      obtain ⟨q₁, hl, hr⟩ := hl.complete hs (by omega) hstop hr
      refine ⟨q₁, bind_eq_ok.mpr ⟨_, hq, ?_⟩, hr⟩
      dsimp only
      rw [he]
      exact bind_eq_ok.mpr ⟨_, hl, rfl⟩
  placed := by
    intro cs p hp
    refine (hi.placed hp).bind fun x hx => ?_
    have he := hx.eat ','
    dsimp only
    split
    · next hq =>
      rw [hq] at he
      exact (hl.placed he).bind fun y hy => .ok hy
    · next hq =>
      rw [hq] at he
      exact .ok he

theorem accepts_item {groups : String → Option (Reader α)} {refusal : String → Problem}
    {single : String → Nat → Nat → Except Fault α} {N : String → List Token → List α → Prop}
    {B : String → α → Prop}
    (hsome : ∀ w r, groups w = some r → Accepts n ['(', ','] r (N w))
    (hnone : ∀ w ts as, N w ts as → groups w ≠ none)
    (hok : ∀ w start here a, single w start here = .ok a ↔ B w a)
    (herror : ∀ w start here e, single w start here = .error e →
      e.offset = start ∨ e.offset = here) :
    Accepts (n + 1) ['('] (item groups refusal single) fun ts as =>
      (∃ w a, ts = [.name w] ∧ as = [a] ∧ B w a) ∨
        ∃ w us, ts = .name w :: .mark '(' :: (us ++ [.mark ')']) ∧ N w us as where
  sound := by
    intro p q as h
    obtain ⟨⟨w, start, p₁⟩, hw, h⟩ := bind_eq_ok.mp h
    dsimp only at h
    split at h
    · next p₂ he =>
      split at h
      · next r hr =>
        obtain ⟨_, ⟨ts, rfl, hts⟩, hr⟩ := (accepts_group (hsome w r hr)).sound h
        refine ⟨_, .inr ⟨w, ts, rfl, hts⟩, fun us hus => ?_⟩
        exact Cursor.reads_of_name hw (Cursor.reads_of_eat (by decide) he (hr us hus))
      · cases h
    · next p₂ he =>
      obtain ⟨a, ha, h⟩ := bind_eq_ok.mp h
      cases h
      refine ⟨_, .inl ⟨w, a, rfl, rfl, (hok _ _ _ _).mp ha⟩, fun us hus => ?_⟩
      exact Cursor.reads_of_name hw (Cursor.reads_of_not_eat he hus)
  complete := by
    rintro p _ us _ (⟨w, a, rfl, rfl, ha⟩ | ⟨w, ts, rfl, hts⟩) hn hstop hr
    · obtain ⟨start, p₁, hw, hr⟩ := Cursor.name_of_reads hr
      obtain ⟨p₂, he, hr⟩ := Cursor.not_eat_of_reads (by decide) hr (hstop '(' (by decide))
      refine ⟨p₂, bind_eq_ok.mpr ⟨_, hw, ?_⟩, hr⟩
      dsimp only
      rw [he]
      exact bind_eq_ok.mpr ⟨_, (hok _ _ _ _).mpr ha, rfl⟩
    · obtain ⟨start, p₁, hw, hr⟩ := Cursor.name_of_reads hr
      obtain ⟨p₂, he, hr⟩ := Cursor.eat_of_reads hr
      obtain ⟨r, hr'⟩ := ne_none_iff_exists'.mp (hnone w ts _ hts)
      obtain ⟨p₃, hg, hr⟩ := (accepts_group (hsome w r hr')).complete ⟨ts, rfl, hts⟩
        (Nat.lt_of_succ_lt (Nat.lt_of_succ_lt hn)) (by simp [Stops]) hr
      refine ⟨p₃, bind_eq_ok.mpr ⟨_, hw, ?_⟩, hr⟩
      dsimp only
      rw [he]
      dsimp only
      rw [hr']
      exact hg
  placed := by
    intro cs p hp
    refine hp.name.bind fun x hx => ?_
    have he := hx.2.eat '('
    dsimp only
    split
    · next hq =>
      rw [hq] at he
      split
      · next r hr => exact (accepts_group (hsome _ r hr)).placed he
      · exact .error hx.1
    · next hq =>
      rw [hq] at he
      refine Placed.bind (P := fun _ => True) ⟨fun _ _ => trivial, fun e h => ?_⟩ fun _ _ => .ok he
      rcases herror _ _ _ _ h with h | h
      · rw [h]
        exact hx.1
      · exact ⟨_, he, h.symm⟩

end

theorem accepts_oneStep {n : Nat} {stops : List Char} {r : Reader FunctionPass}
    {G : List Token → List FunctionPass → Prop} (h : Accepts n stops r G) :
    Accepts n stops (oneStep r) fun ts ss => ∃ ps, G ts ps ∧ ss = [.functions ps] where
  sound := by
    intro p q ss hs
    obtain ⟨⟨ps, q'⟩, hr, hs⟩ := bind_eq_ok.mp hs
    cases hs
    obtain ⟨ts, hts, hus⟩ := h.sound hr
    exact ⟨ts, ⟨ps, hts, rfl⟩, hus⟩
  complete := by
    rintro p ts us _ ⟨ps, hts, rfl⟩ hn hstop hr
    obtain ⟨q, hq, hr⟩ := h.complete hts hn hstop hr
    exact ⟨q, bind_eq_ok.mpr ⟨_, hq, rfl⟩, hr⟩
  placed := fun hp => (h.placed hp).bind fun x hx => .ok hx

theorem functionPass_ofName? {p : FunctionPass} {w : String} :
    FunctionPass.ofName? w = some p ↔ w = p.name := by
  constructor
  · intro h
    have hp := find?_some h
    exact (of_decide_eq_true hp).symm
  · rintro rfl
    cases p <;> decide

theorem pass_ofName? {p : Pass} {w : String} : Pass.ofName? w = some p ↔ w = p.name := by
  constructor
  · intro h
    rcases or_eq_some_iff.mp h with h | ⟨-, h⟩
    · obtain ⟨q, hq, rfl⟩ := map_eq_some_iff.mp h
      exact functionPass_ofName?.mp hq
    · obtain ⟨q, hq, rfl⟩ := map_eq_some_iff.mp h
      have hp := find?_some hq
      exact (of_decide_eq_true hp).symm
  · rintro rfl
    cases p with
    | onFunctions q => cases q <;> decide
    | onModule q => cases q <;> decide

section
variable {n k : Nat} {w : String} {e : Fault}

theorem functionPass_eq_ok {p : FunctionPass} : functionPass w n = .ok p ↔ w = p.name := by
  rw [← functionPass_ofName?, functionPass]
  split
  · next h => simp [h]
  · next h => split <;> simp [h]

theorem modulePass_eq_ok {p : Pass} : modulePass w n k = .ok p ↔ w = p.name := by
  rw [← pass_ofName?, modulePass]
  split
  · next h => simp [h]
  · next h => split <;> simp [h]

theorem offset_of_functionPass (h : functionPass w n = .error e) : e.offset = n := by
  rw [functionPass] at h
  split at h
  · cases h
  · split at h <;> cases h <;> rfl

theorem offset_of_modulePass (h : modulePass w n k = .error e) : e.offset = n ∨ e.offset = k := by
  rw [modulePass] at h
  split at h
  · cases h
  · split at h
    · cases h
      exact .inr rfl
    · cases h
      exact .inl rfl

end

section
variable {n : Nat} {list : Reader Step} {functions : Reader FunctionPass}

theorem accepts_functionItem (hf : Accepts n ['(', ','] functions (Items FunctionItem)) :
    Accepts (n + 1) ['('] (functionItem functions) FunctionItem := by
  refine (accepts_item (N := fun w ts ps => w = "function" ∧ Items FunctionItem ts ps)
    (B := fun w p => w = p.name) (fun w r hr => ?_) ?_ ?_ ?_).congr fun ts ps => ?_
  · split at hr
    · next hw =>
      cases hr
      simpa [hw] using hf
    · cases hr
  · rintro w ts ps ⟨rfl, -⟩
    simp
  · exact fun w start here p => functionPass_eq_ok
  · exact fun w start here e h => .inl (offset_of_functionPass h)
  · constructor
    · rintro (⟨w, p, rfl, rfl, rfl⟩ | ⟨w, us, rfl, rfl, h⟩)
      · exact .pass p
      · exact .group h
    · intro h
      cases h with
      | pass p => exact .inl ⟨_, p, rfl, rfl, rfl⟩
      | group h => exact .inr ⟨_, _, rfl, rfl, h⟩

theorem accepts_moduleItem (hl : Accepts n ['(', ','] list (Items ModuleItem))
    (hf : Accepts n ['(', ','] functions (Items FunctionItem)) :
    Accepts (n + 1) ['('] (moduleItem list functions) ModuleItem := by
  refine (accepts_item (N := fun w ts ss => w = "module" ∧ Items ModuleItem ts ss ∨
    w = "function" ∧ ∃ ps, Items FunctionItem ts ps ∧ ss = [.functions ps])
    (B := fun w s => ∃ p : Pass, w = p.name ∧ s = .pass p)
    (fun w r hr => ?_) ?_ (fun w start here s => ?_) ?_).congr fun ts ps => ?_
  · split at hr
    · next hw =>
      cases hr
      simpa [hw] using hl
    · split at hr
      · next hw =>
        cases hr
        simpa [hw] using accepts_oneStep hf
      · cases hr
  · rintro w ts ps (⟨rfl, -⟩ | ⟨rfl, -⟩) <;> simp
  · cases hm : modulePass w start here with
    | error e =>
      refine ⟨fun h => (nomatch h), ?_⟩
      rintro ⟨p, hp, -⟩
      cases hm.symm.trans (modulePass_eq_ok.mpr hp)
    | ok p =>
      constructor
      · rintro ⟨⟩
        exact ⟨p, modulePass_eq_ok.mp hm, rfl⟩
      · rintro ⟨q, hq, rfl⟩
        cases hm.symm.trans (modulePass_eq_ok.mpr hq)
        rfl
  · intro w start here e he
    cases hm : modulePass w start here with
    | error e' =>
      rw [hm] at he
      cases he
      exact offset_of_modulePass hm
    | ok p =>
      rw [hm] at he
      cases he
  · constructor
    · rintro (⟨w, _, rfl, rfl, p, rfl, rfl⟩ | ⟨w, us, rfl, ⟨rfl, h⟩ | ⟨rfl, ps, h, rfl⟩⟩)
      · exact .pass p
      · exact .group h
      · exact .functions h
    · intro h
      cases h with
      | pass p => exact .inl ⟨_, _, rfl, rfl, p, rfl, rfl⟩
      | functions h => exact .inr ⟨_, _, rfl, .inr ⟨rfl, _, h, rfl⟩⟩
      | group h => exact .inr ⟨_, _, rfl, .inl ⟨rfl, h⟩⟩

end

theorem accepts_zero {stops : List Char} {G : List Token → List α → Prop} :
    Accepts 0 stops (fun p => .error ⟨.noName, p.offset⟩) G where
  sound := fun h => nomatch h
  complete := fun _ h => absurd h (Nat.not_lt_zero _)
  placed := fun hp => .error ⟨_, hp, rfl⟩

theorem accepts_functionList (n : Nat) :
    Accepts n ['(', ','] (functionList n) (Items FunctionItem) := by
  induction n with
  | zero => exact accepts_zero
  | succ n ih => exact accepts_items (accepts_functionItem ih) ih

theorem accepts_moduleList (n : Nat) : Accepts n ['(', ','] (moduleList n) (Items ModuleItem) := by
  induction n with
  | zero => exact accepts_zero
  | succ n ih => exact accepts_items (accepts_moduleItem ih (accepts_functionList n)) ih

def Denotes (cs : List Char) (p : Pipeline) : Prop :=
  ∃ ts, Reads cs ts ∧ (ts = [] ∧ p = [] ∨ Items ModuleItem ts p)

theorem Items.ne_nil {ss : List Step} (h : Items ModuleItem ts ss) : ts ≠ [] := by
  cases h with
  | one h => cases h <;> exact cons_ne_nil _ _
  | more => simp

theorem parse_eq_ok {s : String} {steps : Pipeline} :
    parse s = .ok steps ↔ Denotes s.toList steps := by
  rw [parse]
  split
  · next hp =>
    have hp := List.isEmpty_iff.mp hp
    constructor
    · rintro ⟨⟩
      exact ⟨[], Cursor.reads_of_skip 0 _ (hp ▸ .done), .inl ⟨rfl, rfl⟩⟩
    · rintro ⟨ts, hts, ⟨-, rfl⟩ | h⟩
      · rfl
      · have hlen := (Cursor.reads_cases hts 0).1.length_le
        rw [show Cursor.skip 0 s.toList = Cursor.skipBlank ⟨s.toList, 0⟩ from rfl, hp] at hlen
        exact absurd (eq_nil_of_length_eq_zero (Nat.le_zero.mp hlen)) h.ne_nil
  · next hp =>
    constructor
    · intro h
      obtain ⟨⟨found, q⟩, hm, h⟩ := bind_eq_ok.mp h
      obtain ⟨ts, hts, hr⟩ := (accepts_moduleList _).sound hm
      dsimp only at h
      split at h
      · next hq =>
        cases h
        have hnil := hr [] (Cursor.reads_of_skip q.offset _ (by rw [← Cursor.skipBlank, hq]; exact .done))
        rw [append_nil] at hnil
        exact ⟨ts, Cursor.reads_of_skip 0 _ hnil, .inr hts⟩
      · cases h
    · rintro ⟨ts, hts, ⟨rfl, -⟩ | h⟩
      · rw [Cursor.skipBlank_nil hts] at hp
        exact absurd rfl hp
      · have hlen := hts.length_le
        rw [String.length_toList] at hlen
        rw [← append_nil ts] at hts
        obtain ⟨q, hq, hr⟩ := (accepts_moduleList (s.length + 1)).complete h
          (Nat.lt_succ_of_le hlen) (by simp [Stops]) (Cursor.reads_cases hts 0).1
        refine bind_eq_ok.mpr ⟨_, hq, ?_⟩
        dsimp only
        rw [Cursor.skipBlank_nil hr]
        rfl

theorem placed_parse (s : String) : Placed s.toList (fun _ => True) (parse s) := by
  have hp : Cursor.In ⟨s.toList, 0⟩ s.toList := ⟨[], rfl, rfl⟩
  rw [parse]
  split
  · exact .ok trivial
  · refine ((accepts_moduleList _).placed hp.skipBlank).bind fun x hx => ?_
    dsimp only
    split
    · exact .ok trivial
    · exact .error ⟨_, hx.skipBlank, rfl⟩

theorem utf8ByteSize_ofList (w : List Char) :
    (String.ofList w).utf8ByteSize = (w.map Char.utf8Size).sum := by
  induction w with
  | nil => rfl
  | cons c w ih =>
    rw [String.ofList_cons, String.utf8ByteSize_append, String.utf8ByteSize_singleton, ih]
    rfl

/-- Reading accepts exactly the texts of pipelines and gives the steps that they stand for. A fault
is found between two characters. -/
theorem parse_exact (s : String) :
    (∀ steps, parse s = .ok steps ↔ Denotes s.toList steps) ∧
      ∀ e, parse s = .error e → e.offset ≤ s.utf8ByteSize ∧
        ∃ before after : String, before ++ after = s ∧ before.utf8ByteSize = e.offset := by
  refine ⟨fun steps => parse_eq_ok, fun e he => ?_⟩
  obtain ⟨q, ⟨before, hs, hn⟩, hq⟩ := (placed_parse s).2 e he
  have happ : String.ofList before ++ String.ofList q.rest = s := by
    rw [← String.ofList_append, hs, String.ofList_toList]
  have hsize : (String.ofList before).utf8ByteSize = e.offset := by
    rw [utf8ByteSize_ofList, hn, hq]
  refine ⟨?_, _, _, happ, hsize⟩
  rw [← happ, String.utf8ByteSize_append, hsize]
  exact Nat.le_add_right _ _

/-- Groups of modules disappear and groups of functions become one step. A name is missed after the
comma, before a character of two bytes. -/
theorem parse_exact_nested :
    Denotes " module( dce ,function(reg2mem, function(dce)) ) ".toList
        [.pass (.onFunctions .deadCode), .functions [.spill, .deadCode]] ∧
      4 ≤ "dce,é".utf8ByteSize ∧
        ∃ before after : String, before ++ after = "dce,é" ∧ before.utf8ByteSize = 4 :=
  ⟨((parse_exact _).1 _).mp (by decide +kernel),
    (parse_exact "dce,é").2 ⟨.noName, 4⟩ (by decide +kernel)⟩

end SiteFusion.Pipeline
