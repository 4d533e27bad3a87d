import SiteFusion.Json.Reader
import SiteFusion.Json.Writer

namespace SiteFusion

open List

namespace Literal

theorem hexDigit?_digitChar : ∀ d < 16, hexDigit? d.digitChar = some d := by decide

theorem hexWord?_digitChars {n : Nat} (h : n < 256) :
    hexWord? '0' '0' (Nat.digitChar (n / 16)) (Nat.digitChar (n % 16)) = some n := by
  have hzero : hexDigit? '0' = some 0 := by decide
  rw [hexWord?, hzero, hexDigit?_digitChar _ (by omega), hexDigit?_digitChar _ (by omega)]
  have hn : ((0 * 16 + 0) * 16 + n / 16) * 16 + n % 16 = n := by omega
  exact congrArg some hn

/-- A character is escaped by a backslash and a letter, by its number, or not at all. -/
theorem escapeChar_cases (c : Char) :
    (∃ e, escapeChar c = ['\\', e] ∧ shortEscape? e = some c ∧ e ≠ 'u') ∨
      (c.toNat < 32 ∧ escapeChar c =
        ['\\', 'u', '0', '0', Nat.digitChar (c.toNat / 16), Nat.digitChar (c.toNat % 16)]) ∨
      (escapeChar c = [c] ∧ c ≠ '"' ∧ c ≠ '\\' ∧ 32 ≤ c.toNat) := by
  have hof : ∀ n, c.toNat = n → c = Char.ofNat n := fun n h => h ▸ (Char.ofNat_toNat c).symm
  by_cases hquote : c = '"'
  · subst hquote
    exact .inl ⟨'"', by decide⟩
  by_cases hslash : c = '\\'
  · subst hslash
    exact .inl ⟨'\\', by decide⟩
  by_cases hback : c.toNat = 8
  · rw [hof 8 hback]
    exact .inl ⟨'b', by decide⟩
  by_cases htab : c = '\t'
  · subst htab
    exact .inl ⟨'t', by decide⟩
  by_cases hline : c = '\n'
  · subst hline
    exact .inl ⟨'n', by decide⟩
  by_cases hfeed : c.toNat = 12
  · rw [hof 12 hfeed]
    exact .inl ⟨'f', by decide⟩
  by_cases hreturn : c = '\r'
  · subst hreturn
    exact .inl ⟨'r', by decide⟩
  right
  rw [escapeChar, if_neg hquote, if_neg hslash, if_neg hback, if_neg htab, if_neg hline,
    if_neg hfeed, if_neg hreturn]
  by_cases hlow : c.toNat < 32
  · rw [if_pos hlow]
    exact .inl ⟨hlow, rfl⟩
  · rw [if_neg hlow]
    exact .inr ⟨rfl, hquote, hslash, Nat.not_lt.mp hlow⟩

theorem scanString_escapeChar (c : Char) (rest : List Char) :
    Json.scanString (escapeChar c ++ rest) =
      (⟨escapeChar c ++ (Json.scanString rest).1.raw, (Json.scanString rest).1.stop⟩,
        (Json.scanString rest).2) := by
  rcases escapeChar_cases c with ⟨e, he, hs, hu⟩ | ⟨hc, he⟩ | ⟨he, hq, hb, hc⟩
  · rw [he]
    simp only [List.cons_append, List.nil_append]
    rw [Json.scanString]
    · simp [hs]
    · exact hu
  · rw [he]
    simp only [List.cons_append, List.nil_append]
    rw [Json.scanString]
    simp [hexWord?_digitChars (n := c.toNat) (by omega)]
  · rw [he]
    simp only [List.cons_append, List.nil_append]
    rw [Json.scanString.eq_def]
    split <;> simp_all

theorem scanString_ofString (s : String) (rest : List Char) :
    Json.scanString ((ofString s).raw ++ '"' :: rest) = (ofString s, rest) := by
  unfold ofString
  induction s.toList with
  | nil => simp [Json.scanString]
  | cons c cs ih =>
    simp only [flatMap_cons, append_assoc, scanString_escapeChar] at ih ⊢
    rw [ih]

theorem resolve_escapeChar (c : Char) (rest : List Char) :
    resolve none (escapeChar c ++ rest) = (resolve none rest).map (c :: ·) := by
  rcases escapeChar_cases c with ⟨e, he, hs, hu⟩ | ⟨hc, he⟩ | ⟨he, hq, hb, hc⟩
  · rw [he]
    simp only [cons_append, nil_append]
    rw [resolve]
    · simp [hs]
    · intros
      simp_all
    · exact fun h => hu h
  · rw [he]
    simp only [cons_append, nil_append]
    rw [resolve, hexWord?_digitChars (n := c.toNat) (by omega)]
    have hlow : ¬ (0xDC00 ≤ c.toNat ∧ c.toNat ≤ 0xDFFF) := by omega
    have hplain : c.toNat < 0xD800 ∨ 0xDBFF < c.toNat := by omega
    simp only [hlow, hplain, ↓reduceIte, Char.ofNat_toNat]
  · rw [he]
    simp only [cons_append, nil_append]
    rw [resolve.eq_def]
    split <;> simp_all

@[simp]
theorem text_ofString (s : String) : (ofString s).text = .ok s := by
  have h : ∀ cs : List Char, resolve none (cs.flatMap escapeChar) = .ok cs := by
    intro cs
    induction cs with
    | nil => simp [resolve]
    | cons c cs ih => rw [flatMap_cons, resolve_escapeChar, ih]; rfl
  rw [text, ofString, h, Except.map, String.ofList_toList]

end Literal

namespace Json

variable {c : Char} {j : Json} {n : Nat} {rest tail : List Char}

theorem isDigit_of_mem_digits (h : c ∈ Text.digitsOf n) : isDigit c = true := by
  have hd := Nat.isDigit_of_mem_toDigits (by decide) (by decide) h
  rw [Char.isDigit, Bool.and_eq_true, decide_eq_true_eq, decide_eq_true_eq] at hd
  rw [isDigit, Bool.and_eq_true, decide_eq_true_eq, decide_eq_true_eq]
  exact hd

theorem readNat_digits (n : Nat) : readNat (Text.digitsOf n) = n := by
  have h : ∀ (cs : List Char) (k : Nat),
      cs.foldl (fun n c => n * 10 + digitValue c) k = Nat.ofDigitChars 10 cs k := by
    intro cs
    induction cs with
    | nil => intro k; rfl
    | cons c cs ih => intro k; rw [foldl_cons, ih, Nat.ofDigitChars_cons, Nat.mul_comm]; rfl
  rw [readNat, h]
  exact Nat.ofDigitChars_ten_toDigits

theorem head?_digits_ne_zero (h : 0 < n) : (Text.digitsOf n).head? ≠ some '0' := by
  induction n using Nat.strongRecOn with
  | _ n ih =>
    by_cases hn : n < 10
    · rw [Text.digitsOf, Nat.toDigits_of_lt_base hn]
      simpa [Nat.digitChar_eq_zero] using Nat.ne_of_gt h
    · have hd : Text.digitsOf n = Text.digitsOf (n / 10) ++ [(n % 10).digitChar] :=
        Nat.toDigits_of_base_le (by decide) (by omega)
      have hfew := ih (n / 10) (by omega) (by omega)
      have hne : Text.digitsOf (n / 10) ≠ [] := Nat.toDigits_ne_nil
      rw [hd]
      cases hs : Text.digitsOf (n / 10) with
      | nil => exact absurd hs hne
      | cons c cs => rw [hs] at hfew; exact hfew

/-- What can follow a number without being taken for a part of it. -/
def Ends (rest : List Char) : Prop :=
  ∀ c ∈ rest.head?, isDigit c = false ∧ c ≠ '.' ∧ c ≠ 'e' ∧ c ≠ 'E'

theorem takeWhile_digits (n : Nat) (h : Ends rest) :
    (Text.digitsOf n ++ rest).takeWhile isDigit = Text.digitsOf n := by
  rw [takeWhile_append_of_pos fun c hc => isDigit_of_mem_digits hc]
  cases rest with
  | nil => simp
  | cons c cs => simp [(h c rfl).1]

theorem dropWhile_digits (n : Nat) (h : Ends rest) :
    (Text.digitsOf n ++ rest).dropWhile isDigit = rest := by
  rw [dropWhile_append_of_pos fun c hc => isDigit_of_mem_digits hc]
  cases rest with
  | nil => rfl
  | cons c cs => simp [(h c rfl).1]

theorem scanExponent_of_ends (n : Numeral) (h : Ends rest) :
    scanExponent n rest = (.number n, rest) := by
  cases rest with
  | nil => rfl
  | cons c cs =>
    obtain ⟨-, -, he, hE⟩ := h c rfl
    simp [scanExponent, he, hE]

theorem scanNumber_digits (negative : Bool) (n : Nat) (rest : List Char) (h : Ends rest) :
    scanNumber negative (Text.digitsOf n ++ rest) =
      (.number ⟨negative, n, [], none⟩, rest) := by
  have hne : Text.digitsOf n ≠ [] := Nat.toDigits_ne_nil
  have hzero : ¬ ((Text.digitsOf n).head? = some '0' ∧ 1 < (Text.digitsOf n).length) := by
    rintro ⟨hz, hl⟩
    by_cases hn : n = 0
    · subst hn
      simp [Text.digitsOf, Nat.toDigits_zero] at hl
    · exact head?_digits_ne_zero (Nat.pos_of_ne_zero hn) hz
  simp only [scanNumber, takeWhile_digits n h, dropWhile_digits n h, List.isEmpty_iff, hne, hzero,
    ↓reduceIte, readNat_digits]
  cases rest with
  | nil => exact scanExponent_of_ends _ h
  | cons c cs =>
    have hdot := (h c rfl).2.1
    split
    · simp_all
    · exact scanExponent_of_ends _ h

/-- Nothing but blanks. -/
def Blank (cs : List Char) : Prop := skipBlank cs = []

/-- The text of a member: blanks, its name and the text of its value. -/
def memberText (lead : List Char) (p : String × Json × List Char) : List Char :=
  lead ++ quoted (.ofString p.1) ++ ':' :: p.2.2

/-- The texts of a value. Blanks may stand before every value, before every member and before a
closing bracket or brace. -/
inductive Spells : Json → List Char → Prop
  | null : Spells .null ['n', 'u', 'l', 'l']
  | yes : Spells (.bool true) ['t', 'r', 'u', 'e']
  | no : Spells (.bool false) ['f', 'a', 'l', 's', 'e']
  | int (i : Int) : Spells (.ofInt i) (Numeral.ofInt i).chars
  | string (s : String) : Spells (.ofString s) (quoted (.ofString s))
  | noItems : Spells (.ofList []) ['[', ']']
  | items (parts : List (Json × List Char)) (gap : List Char) (hne : parts ≠ []) (hgap : Blank gap)
    (h : ∀ p ∈ parts, Spells p.1 p.2) :
    Spells (.ofList (parts.map Prod.fst))
      ('[' :: ([','].intercalate (parts.map Prod.snd) ++ (gap ++ [']'])))
  | noMembers : Spells (.ofMembers []) ['\x7b', '\x7d']
  | members (parts : List (String × Json × List Char)) (lead gap : List Char) (hne : parts ≠ [])
    (hlead : Blank lead) (hgap : Blank gap) (h : ∀ p ∈ parts, Spells p.2.1 p.2.2) :
    Spells (.ofMembers (parts.map fun p => (p.1, p.2.1)))
      ('\x7b' :: ([','].intercalate (parts.map (memberText lead)) ++ (gap ++ ['\x7d'])))
  | indented {j : Json} {cs : List Char} (gap : List Char) (hgap : Blank gap) (h : Spells j cs) :
    Spells j (gap ++ cs)

theorem skipBlank_append_of_blank {gap : List Char} (h : Blank gap) (rest : List Char) :
    skipBlank (gap ++ rest) = skipBlank rest := by
  rw [Blank, skipBlank] at h
  rw [skipBlank, dropWhile_append, h]
  rfl

theorem skipBlank_append {cs : List Char} (h : skipBlank cs = c :: tail) (rest : List Char) :
    skipBlank (cs ++ rest) = c :: (tail ++ rest) := by
  rw [skipBlank] at h
  rw [skipBlank, dropWhile_append, h]
  rfl

theorem skipBlank_skipBlank (cs : List Char) : skipBlank (skipBlank cs) = skipBlank cs := by
  induction cs with
  | nil => rfl
  | cons c cs ih =>
    unfold skipBlank at ih ⊢
    rw [dropWhile_cons]
    split
    · exact ih
    · next h => rw [dropWhile_cons, if_neg h]

theorem skipBlank_digit (h : isDigit c = true) (rest : List Char) :
    skipBlank (c :: rest) = c :: rest := by
  rw [skipBlank, dropWhile_cons, if_neg]
  simp only [Bool.or_eq_true, decide_eq_true_eq]
  rintro (((rfl | rfl) | rfl) | rfl) <;> revert h <;> decide

theorem scanValue_skipBlank (fuel : Nat) (cs : List Char) :
    scanValue fuel (skipBlank cs) = scanValue fuel cs := by
  cases fuel with
  | zero => simp only [scanValue]
  | succ fuel => simp only [scanValue, skipBlank_skipBlank]

theorem skipBlank_intercalate {a : List Char} (h : skipBlank a = c :: tail) (l : List (List Char))
    (rest : List Char) : ∃ tail, skipBlank ([','].intercalate (a :: l) ++ rest) = c :: tail := by
  cases l with
  | nil => exact ⟨_, by rw [intercalate_singleton, skipBlank_append h]⟩
  | cons b l =>
    exact ⟨_, by rw [intercalate_cons_cons, append_assoc, append_assoc,
      skipBlank_append h]⟩

theorem ends_closed {gap : List Char} (h : Blank gap) {c : Char} (hc : c = ']' ∨ c = '\x7d')
    (rest : List Char) : Ends (gap ++ c :: rest) := by
  cases gap with
  | nil =>
    rintro a ⟨⟩
    rcases hc with rfl | rfl <;> decide
  | cons b gap =>
    rintro a ⟨⟩
    have hb : b = ' ' ∨ b = '\n' ∨ b = '\t' ∨ b = '\r' := by
      refine Decidable.byContradiction fun hb => ?_
      simp only [not_or] at hb
      simp [Blank, skipBlank, hb] at h
    rcases hb with rfl | rfl | rfl | rfl <;> decide

namespace Spells

variable {j : Json} {cs : List Char}

theorem stop?_eq_none (h : Spells j cs) : j.stop? = none := by
  induction h with
  | indented _ _ _ ih => exact ih
  | _ => rfl

/-- A text of a value does not look like the end of a list. -/
theorem head (h : Spells j cs) : ∃ c tail, skipBlank cs = c :: tail ∧ c ≠ ']' := by
  induction h with
  | null | yes | no | noItems | noMembers => exact ⟨_, _, rfl, by decide⟩
  | int i =>
    by_cases hi : i < 0
    · exact ⟨'-', Text.digitsOf i.natAbs, by simp [Numeral.chars, Numeral.ofInt, hi, skipBlank],
        by decide⟩
    · cases hd : Text.digitsOf i.natAbs with
      | nil => exact absurd hd Nat.toDigits_ne_nil
      | cons c tail =>
        have hdigit : isDigit c = true := isDigit_of_mem_digits (n := i.natAbs) (by simp [hd])
        refine ⟨c, tail, by simp [Numeral.chars, Numeral.ofInt, hi, hd, skipBlank_digit hdigit], ?_⟩
        rintro rfl
        revert hdigit
        decide
  | string s => exact ⟨_, _, rfl, by decide⟩
  | items => exact ⟨_, _, rfl, by decide⟩
  | members => exact ⟨_, _, rfl, by decide⟩
  | indented gap hgap _ ih =>
    obtain ⟨c, tail, hc, hne⟩ := ih
    exact ⟨c, tail, by rw [skipBlank_append_of_blank hgap, hc], hne⟩

end Spells

/-- The value is read from a text before whatever ends it. -/
def ReadFrom (j : Json) (cs : List Char) : Prop :=
  ∀ fuel rest, 2 * cs.length ≤ fuel → Ends rest → scanValue fuel (cs ++ rest) = (j, rest)

theorem scanValue_int (i : Int) : ReadFrom (.ofInt i) (Numeral.ofInt i).chars := by
  intro fuel rest hfuel hrest
  have hne : Text.digitsOf i.natAbs ≠ [] := Nat.toDigits_ne_nil
  have hlen : 0 < (Text.digitsOf i.natAbs).length := length_pos_iff.mpr hne
  by_cases hi : i < 0
  · have hchars : (Numeral.ofInt i).chars = '-' :: Text.digitsOf i.natAbs := by
      simp [Numeral.chars, Numeral.ofInt, hi]
    rw [hchars] at hfuel ⊢
    obtain ⟨fuel, rfl⟩ : ∃ k, fuel = k + 1 := ⟨fuel - 1, by simp at hfuel; omega⟩
    have hnumber := scanNumber_digits true i.natAbs _ hrest
    simp only [cons_append, scanValue, skipBlank]
    simpa [ofInt, Numeral.ofInt, hi] using hnumber
  · have hchars : (Numeral.ofInt i).chars = Text.digitsOf i.natAbs := by
      simp [Numeral.chars, Numeral.ofInt, hi]
    rw [hchars] at hfuel ⊢
    obtain ⟨fuel, rfl⟩ : ∃ k, fuel = k + 1 := ⟨fuel - 1, by omega⟩
    have hnumber := scanNumber_digits false i.natAbs _ hrest
    cases hd : Text.digitsOf i.natAbs with
    | nil => exact absurd hd hne
    | cons c tail =>
      have hdigit : isDigit c = true := isDigit_of_mem_digits (n := i.natAbs) (by simp [hd])
      have hother : c ≠ 'n' ∧ c ≠ 't' ∧ c ≠ 'f' ∧ c ≠ '-' := by
        refine ⟨?_, ?_, ?_, ?_⟩ <;> (rintro rfl; revert hdigit; decide)
      obtain ⟨hn, ht, hf, hm⟩ := hother
      rw [hd] at hnumber
      simp only [cons_append, scanValue, skipBlank_digit hdigit, hn, ht, hf, hm, hdigit,
        ↓reduceIte] at hnumber ⊢
      simpa [ofInt, Numeral.ofInt, hi] using hnumber

theorem scanValue_string (s : String) : ReadFrom (.ofString s) (quoted (.ofString s)) := by
  intro fuel rest hfuel _
  obtain ⟨fuel, rfl⟩ : ∃ k, fuel = k + 1 := ⟨fuel - 1, by simp [quoted] at hfuel; omega⟩
  have hscan := Literal.scanString_ofString s rest
  simp only [quoted, cons_append, append_assoc, nil_append, scanValue, skipBlank]
  simp [isDigit, hscan, ofString]

theorem scanItems_skipBlank (fuel : Nat) (cs : List Char) :
    scanItems fuel (skipBlank cs) = scanItems fuel cs := by
  cases fuel with
  | zero => simp only [scanItems]
  | succ fuel => simp only [scanItems, skipBlank_skipBlank]

section Items

variable {fuel : Nat} {cs rest more : List Char} {j : Json}

theorem scanItems_last (h : Spells j cs) (hv : scanValue fuel (cs ++ rest) = (j, rest))
    (hrest : skipBlank rest = ']' :: more) :
    scanItems (fuel + 1) (cs ++ rest) = ([j], none, more) := by
  obtain ⟨c, tail, hc, hclose⟩ := h.head
  rw [← scanValue_skipBlank, skipBlank_append hc] at hv
  rw [scanItems, skipBlank_append hc]
  split
  · next he => cases he
  · next he => exact absurd (List.cons.inj he).1 hclose
  · simp only [hv, h.stop?_eq_none, hrest]

theorem scanItems_next (h : Spells j cs) (hv : scanValue fuel (cs ++ rest) = (j, rest))
    (hrest : skipBlank rest = ',' :: more) (hmore : skipBlank more ≠ []) :
    scanItems (fuel + 1) (cs ++ rest) =
      (j :: (scanItems fuel more).1, (scanItems fuel more).2.1, (scanItems fuel more).2.2) := by
  obtain ⟨c, tail, hc, hclose⟩ := h.head
  rw [← scanValue_skipBlank, skipBlank_append hc] at hv
  rw [scanItems, skipBlank_append hc]
  split
  · next he => cases he
  · next he => exact absurd (List.cons.inj he).1 hclose
  · simp only [hv, h.stop?_eq_none, hrest, scanItems_skipBlank]

end Items

theorem ends_comma (rest : List Char) : Ends (',' :: rest) := by
  rintro a ⟨⟩
  decide

theorem scanItems_parts {gap : List Char} (hgap : Blank gap) (rest : List Char)
    (parts : List (Json × List Char)) (hne : parts ≠ []) (h : ∀ p ∈ parts, Spells p.1 p.2)
    (hread : ∀ p ∈ parts, ReadFrom p.1 p.2) (fuel : Nat)
    (hfuel : 2 * ([','].intercalate (parts.map Prod.snd)).length + 1 ≤ fuel) :
    scanItems fuel ([','].intercalate (parts.map Prod.snd) ++ (gap ++ ']' :: rest)) =
      (parts.map Prod.fst, none, rest) := by
  induction parts generalizing fuel with
  | nil => exact absurd rfl hne
  | cons p parts ih =>
    obtain ⟨fuel, rfl⟩ : ∃ k, fuel = k + 1 := ⟨fuel - 1, by omega⟩
    have hp := h p (by simp)
    cases parts with
    | nil =>
      simp only [map_cons, map_nil, intercalate_singleton] at hfuel ⊢
      have hvalue := hread p (by simp) fuel _ (by omega) (ends_closed hgap (.inl rfl) rest)
      exact scanItems_last hp hvalue (skipBlank_append_of_blank hgap _)
    | cons q parts =>
      simp only [map_cons, intercalate_cons_cons, append_assoc, cons_append,
        nil_append, length_append, length_cons] at hfuel ih ⊢
      have hitems := ih (by simp) (fun r hr => h r (mem_cons_of_mem _ hr))
        (fun r hr => hread r (mem_cons_of_mem _ hr)) fuel (by omega)
      obtain ⟨c, tail, hc, -⟩ := (h q (by simp)).head
      obtain ⟨tail, hmore⟩ := skipBlank_intercalate hc (parts.map Prod.snd) (gap ++ ']' :: rest)
      have hvalue := hread p (by simp) fuel (',' :: ([','].intercalate (q.2 :: parts.map Prod.snd) ++
        (gap ++ ']' :: rest))) (by omega) (ends_comma _)
      rw [scanItems_next hp hvalue rfl (by simp [hmore]), hitems]

section Members

variable {fuel : Nat} {name : String} {cs rest more : List Char} {j : Json}

variable (name) in
theorem scanMembers_last (h : Spells j cs) (hv : scanValue fuel (cs ++ rest) = (j, rest))
    (hrest : skipBlank rest = '\x7d' :: more) :
    scanMembers (fuel + 1) ('"' :: ((Literal.ofString name).raw ++ '"' :: ':' :: (cs ++ rest))) =
      ([(.ofString name, j)], none, more) := by
  have hkey := Literal.scanString_ofString name (':' :: (cs ++ rest))
  have hstop : (Literal.ofString name).stop = none := rfl
  have hcolon : skipBlank (':' :: (cs ++ rest)) = ':' :: (cs ++ rest) := rfl
  simp only [scanMembers, hkey, hstop, hcolon, hv, h.stop?_eq_none, hrest]

variable (name) in
theorem scanMembers_next (h : Spells j cs) (hv : scanValue fuel (cs ++ rest) = (j, rest))
    (hrest : skipBlank rest = ',' :: more) (hmore : skipBlank more ≠ []) :
    scanMembers (fuel + 1) ('"' :: ((Literal.ofString name).raw ++ '"' :: ':' :: (cs ++ rest))) =
      ((.ofString name, j) :: (scanMembers fuel (skipBlank more)).1,
        (scanMembers fuel (skipBlank more)).2.1, (scanMembers fuel (skipBlank more)).2.2) := by
  have hkey := Literal.scanString_ofString name (':' :: (cs ++ rest))
  have hstop : (Literal.ofString name).stop = none := rfl
  have hcolon : skipBlank (':' :: (cs ++ rest)) = ':' :: (cs ++ rest) := rfl
  simp only [scanMembers, hkey, hstop, hcolon, hv, h.stop?_eq_none, hrest]

end Members

theorem skipBlank_memberText {lead : List Char} (h : Blank lead) (p : String × Json × List Char) :
    skipBlank (memberText lead p) =
      '"' :: ((Literal.ofString p.1).raw ++ '"' :: ':' :: p.2.2) := by
  rw [memberText, append_assoc, skipBlank_append_of_blank h]
  simp [quoted, skipBlank]

theorem scanMembers_parts {lead gap : List Char} (hlead : Blank lead) (hgap : Blank gap)
    (rest : List Char) (parts : List (String × Json × List Char)) (hne : parts ≠ [])
    (h : ∀ p ∈ parts, Spells p.2.1 p.2.2) (hread : ∀ p ∈ parts, ReadFrom p.2.1 p.2.2) (fuel : Nat)
    (hfuel : 2 * ([','].intercalate (parts.map (memberText lead))).length + 1 ≤ fuel) :
    scanMembers fuel
        (skipBlank ([','].intercalate (parts.map (memberText lead)) ++ (gap ++ '\x7d' :: rest))) =
      (parts.map fun p => (.ofString p.1, p.2.1), none, rest) := by
  induction parts generalizing fuel with
  | nil => exact absurd rfl hne
  | cons p parts ih =>
    obtain ⟨fuel, rfl⟩ : ∃ k, fuel = k + 1 := ⟨fuel - 1, by omega⟩
    have hp := h p (by simp)
    have hstart := skipBlank_memberText hlead p
    have hlen : p.2.2.length ≤ (memberText lead p).length := by simp [memberText]; omega
    cases parts with
    | nil =>
      simp only [map_cons, map_nil, intercalate_singleton] at hfuel ⊢
      have hvalue := hread p (by simp) fuel _ (by omega) (ends_closed hgap (.inr rfl) rest)
      have hlast := scanMembers_last p.1 hp hvalue (skipBlank_append_of_blank hgap _)
      rw [skipBlank_append hstart]
      simpa only [append_assoc, cons_append] using hlast
    | cons q parts =>
      simp only [map_cons, intercalate_cons_cons, append_assoc, cons_append,
        nil_append, length_append, length_cons] at hfuel ih ⊢
      have hmembers := ih (by simp) (fun r hr => h r (mem_cons_of_mem _ hr))
        (fun r hr => hread r (mem_cons_of_mem _ hr)) fuel (by omega)
      obtain ⟨tail, hmore⟩ := skipBlank_intercalate (skipBlank_memberText hlead q)
        (parts.map (memberText lead)) (gap ++ '\x7d' :: rest)
      have hvalue := hread p (by simp) fuel (',' :: ([','].intercalate (memberText lead q ::
        parts.map (memberText lead)) ++ (gap ++ '\x7d' :: rest))) (by omega) (ends_comma _)
      have hnext := scanMembers_next p.1 hp hvalue rfl (by simp [hmore])
      rw [hmembers] at hnext
      rw [skipBlank_append hstart]
      simpa only [append_assoc, cons_append] using hnext

theorem scanValue_bracket (fuel : Nat) {cs tail : List Char} {c : Char}
    (h : skipBlank cs = c :: tail) (hc : c ≠ ']') :
    scanValue (fuel + 1) ('[' :: cs) =
      (.array (scanItems fuel cs).1 (scanItems fuel cs).2.1, (scanItems fuel cs).2.2) := by
  have hopen : skipBlank ('[' :: cs) = '[' :: cs := rfl
  have hdigit : isDigit '[' = false := rfl
  rw [scanValue, hopen]
  simp only [Char.reduceEq, ↓reduceIte, hdigit, Bool.false_eq_true]
  split
  · next he => exact absurd (List.cons.inj (h ▸ he)).1 hc
  · rw [scanItems_skipBlank]

theorem scanValue_brace (fuel : Nat) {cs : List Char} (h : skipBlank cs = c :: tail)
    (hc : c ≠ '\x7d') :
    scanValue (fuel + 1) ('\x7b' :: cs) =
      (.object (scanMembers fuel (skipBlank cs)).1 (scanMembers fuel (skipBlank cs)).2.1,
        (scanMembers fuel (skipBlank cs)).2.2) := by
  have hopen : skipBlank ('\x7b' :: cs) = '\x7b' :: cs := rfl
  have hdigit : isDigit '\x7b' = false := rfl
  rw [scanValue, hopen]
  simp only [Char.reduceEq, ↓reduceIte, hdigit, Bool.false_eq_true]
  split
  · next he => rw [h] at he; cases he
  · next he => exact absurd (List.cons.inj (h ▸ he)).1 hc
  · rfl

theorem Spells.readFrom {cs : List Char} (h : Spells j cs) : ReadFrom j cs := by
  induction h with
  | int i => exact scanValue_int i
  | string s => exact scanValue_string s
  | indented gap hgap _ ih =>
    intro fuel rest hfuel hrest
    rw [append_assoc, ← scanValue_skipBlank, skipBlank_append_of_blank hgap,
      scanValue_skipBlank]
    exact ih fuel rest (by rw [length_append] at hfuel; omega) hrest
  | null | yes | no | noItems | noMembers =>
    intro fuel rest hfuel _
    obtain ⟨fuel, rfl⟩ : ∃ k, fuel = k + 1 := ⟨fuel - 1, by simp at hfuel; omega⟩
    rfl
  | items parts gap hne hgap h ih =>
    intro fuel rest hfuel _
    obtain ⟨fuel, rfl⟩ : ∃ k, fuel = k + 1 := ⟨fuel - 1, by simp at hfuel; omega⟩
    have hitems := scanItems_parts hgap rest parts hne h ih fuel (by simp at hfuel; omega)
    obtain ⟨p, parts, rfl⟩ := exists_cons_of_ne_nil hne
    obtain ⟨c, tail, hc, hclose⟩ := (h p (by simp)).head
    obtain ⟨tail, hc⟩ := skipBlank_intercalate hc (parts.map Prod.snd) (gap ++ ']' :: rest)
    have hvalue := scanValue_bracket fuel hc hclose
    rw [map_cons] at hitems
    rw [hitems] at hvalue
    simpa [ofList] using hvalue
  | members parts lead gap hne hlead hgap h ih =>
    intro fuel rest hfuel _
    obtain ⟨fuel, rfl⟩ : ∃ k, fuel = k + 1 := ⟨fuel - 1, by simp at hfuel; omega⟩
    have hmembers := scanMembers_parts hlead hgap rest parts hne h ih fuel (by simp at hfuel; omega)
    obtain ⟨p, parts, rfl⟩ := exists_cons_of_ne_nil hne
    obtain ⟨tail, hc⟩ := skipBlank_intercalate (skipBlank_memberText hlead p)
      (parts.map (memberText lead)) (gap ++ '\x7d' :: rest)
    have hvalue := scanValue_brace fuel hc (by decide)
    rw [map_cons] at hmembers
    rw [hmembers] at hvalue
    simpa [ofMembers, Function.comp_def] using hvalue

theorem read_of_spells {cs : List Char} (h : Spells j cs) :
    read (String.ofList cs) = (j, false) := by
  have hscan := h.readFrom (2 * cs.length + 2) [] (by omega) (by rintro c ⟨⟩)
  rw [append_nil] at hscan
  rw [read, String.length_ofList, String.toList_ofList, hscan]
  rfl

/-- The values that are written without floating point numbers. -/
inductive Plain : Json → Prop
  | null : Plain .null
  | bool (b : Bool) : Plain (.bool b)
  | int (i : Int) : Plain (.ofInt i)
  | string (s : String) : Plain (.ofString s)
  | list (js : List Json) (h : ∀ j ∈ js, Plain j) : Plain (.ofList js)
  | members (ms : List (String × Json)) (h : ∀ m ∈ ms, Plain m.2) : Plain (.ofMembers ms)

theorem eq_intercalate {α : Type} {f : List α → List Char} {g : α → List Char} (hnil : f [] = [])
    (hone : ∀ a, f [a] = g a) (hmore : ∀ a b l, f (a :: b :: l) = g a ++ ',' :: f (b :: l))
    (l : List α) : f l = [','].intercalate (l.map g) := by
  induction l with
  | nil => exact hnil
  | cons a l ih =>
    cases l with
    | nil => rw [hone, map_singleton, intercalate_singleton]
    | cons b l =>
      rw [hmore, ih]
      simp only [map_cons, intercalate_cons_cons, append_assoc,
        singleton_append]

theorem itemChars_eq (js : List Json) : itemChars js = [','].intercalate (js.map chars) :=
  eq_intercalate (by rw [itemChars]) (fun j => by rw [itemChars])
    (fun j k js => by rw [itemChars]; simp) js

/-- The members as a writer gets them. -/
def keyed (ms : List (String × Json)) : List (Literal × Json) :=
  ms.map fun m => (.ofString m.1, m.2)

theorem memberChars_eq (ms : List (String × Json)) :
    memberChars (keyed ms) =
      [','].intercalate (ms.map fun m => memberText [] (m.1, m.2, chars m.2)) := by
  apply eq_intercalate (f := fun ms => memberChars (keyed ms))
  · rw [keyed, map_nil, memberChars]
  · intro m
    rw [keyed, map_singleton, memberChars]
    rfl
  · intro m k ms
    rw [keyed, map_cons, map_cons, memberChars, keyed, map_cons]
    · simp only [memberText, quoted, nil_append, cons_append, append_assoc]
    · intro h
      cases h

theorem prettyItems_eq (depth : Nat) (js : List Json) :
    prettyItems depth js =
      [','].intercalate (js.map fun j => indent depth ++ prettyChars depth j) :=
  eq_intercalate (by rw [prettyItems]) (fun j => by rw [prettyItems])
    (fun j k js => by rw [prettyItems]; simp) js

theorem prettyMembers_eq (depth : Nat) (ms : List (String × Json)) :
    prettyMembers depth (keyed ms) =
      [','].intercalate
        (ms.map fun m => memberText (indent depth) (m.1, m.2, ' ' :: prettyChars depth m.2)) := by
  apply eq_intercalate (f := fun ms => prettyMembers depth (keyed ms))
  · rw [keyed, map_nil, prettyMembers]
  · intro m
    rw [keyed, map_singleton, prettyMembers]
    simp only [memberText, quoted, nil_append, cons_append, append_assoc]
  · intro m k ms
    rw [keyed, map_cons, map_cons, prettyMembers, keyed, map_cons]
    · simp only [memberText, quoted, nil_append, cons_append, append_assoc]
    · intro h
      cases h

theorem blank_indent (depth : Nat) : Blank (indent depth) := by
  have h : ∀ n, skipBlank (List.replicate n ' ') = [] := by
    intro n
    induction n with
    | zero => rfl
    | succ n ih => exact ih
  exact h _

theorem Plain.spells_chars (h : Plain j) : Spells j (chars j) := by
  induction h with
  | null => exact .null
  | bool b => cases b <;> constructor
  | int i => exact .int i
  | string s => exact .string s
  | list js h ih =>
    cases js with
    | nil => exact .noItems
    | cons j js =>
      have hitems := Spells.items ((j :: js).map fun k => (k, chars k)) [] (by simp) rfl
        (by simpa using ih)
      simpa [ofList, chars, itemChars_eq, Function.comp_def] using hitems
  | members ms h ih =>
    cases ms with
    | nil => exact .noMembers
    | cons m ms =>
      have hmembers := Spells.members ((m :: ms).map fun k => (k.1, k.2, chars k.2)) [] []
        (by simp) rfl rfl (by
          intro p hp
          obtain ⟨k, hk, rfl⟩ := List.mem_map.mp hp
          exact ih k hk)
      have htext := memberChars_eq (m :: ms)
      simp only [map_cons, List.map_map, Function.comp_def] at hmembers htext
      rw [← htext] at hmembers
      simpa [ofMembers, keyed, chars, Function.comp_def] using hmembers

theorem Plain.spells_prettyChars (h : Plain j) (depth : Nat) : Spells j (prettyChars depth j) := by
  induction h generalizing depth with
  | null => exact .null
  | bool b => cases b <;> constructor
  | int i => exact .int i
  | string s => exact .string s
  | list js h ih =>
    cases js with
    | nil => exact .noItems
    | cons j js =>
      have hitems := Spells.items
        ((j :: js).map fun k => (k, indent (depth + 1) ++ prettyChars (depth + 1) k)) (indent depth)
        (by simp) (blank_indent depth) (by
          intro p hp
          obtain ⟨k, hk, rfl⟩ := List.mem_map.mp hp
          exact .indented _ (blank_indent _) (ih k hk (depth + 1)))
      simpa [ofList, prettyChars, prettyItems_eq, Function.comp_def] using hitems
  | members ms h ih =>
    cases ms with
    | nil => exact .noMembers
    | cons m ms =>
      have hmembers := Spells.members
        ((m :: ms).map fun k => (k.1, k.2, ' ' :: prettyChars (depth + 1) k.2)) (indent (depth + 1))
        (indent depth) (by simp) (blank_indent _) (blank_indent _) (by
          intro p hp
          obtain ⟨k, hk, rfl⟩ := List.mem_map.mp hp
          exact .indented [' '] rfl (ih k hk (depth + 1)))
      have htext := prettyMembers_eq (depth + 1) (m :: ms)
      simp only [map_cons, List.map_map, Function.comp_def] at hmembers htext
      rw [← htext] at hmembers
      simpa [ofMembers, keyed, prettyChars, Function.comp_def] using hmembers

theorem Plain.read_render (h : Plain j) : read j.render = (j, false) :=
  read_of_spells h.spells_chars

theorem Plain.read_renderPretty (h : Plain j) : read j.renderPretty = (j, false) :=
  read_of_spells (h.spells_prettyChars 0)

end Json

end SiteFusion
