import SiteFusion.Json.Value

namespace SiteFusion.Json

def skipBlank (cs : List Char) : List Char :=
  cs.dropWhile fun c => c = ' ' || c = '\n' || c = '\t' || c = '\r'

/-- Why four hexadecimal digits are not there: because fewer than four bytes are left, or because
there is something else. -/
def noHex (cs : List Char) : Stop :=
  if (cs.foldl (fun n c => n + c.utf8Size) 0) < 4 then .endedInside .string else .malformed

def scanString : List Char → Literal × List Char
  | [] => (⟨[], some (.endedInside .string)⟩, [])
  | '"' :: rest => (⟨[], none⟩, rest)
  | '\\' :: 'u' :: rest =>
    match rest with
    | a :: b :: c :: d :: rest' =>
      if (hexWord? a b c d).isSome then
        let r := scanString rest'
        (⟨'\\' :: 'u' :: a :: b :: c :: d :: r.1.raw, r.1.stop⟩, r.2)
      else (⟨['\\', 'u'], some (noHex rest)⟩, [])
    | _ => (⟨['\\', 'u'], some (noHex rest)⟩, [])
  | ['\\'] => (⟨['\\'], some (.endedInside .string)⟩, [])
  | '\\' :: c :: rest =>
    if (shortEscape? c).isSome then
      let r := scanString rest
      (⟨'\\' :: c :: r.1.raw, r.1.stop⟩, r.2)
    else (⟨['\\'], some .malformed⟩, [])
  | c :: rest =>
    if c.toNat < 32 then (⟨[], some .malformed⟩, [])
    else
      let r := scanString rest
      (⟨c :: r.1.raw, r.1.stop⟩, r.2)

def isDigit (c : Char) : Bool := '0' ≤ c && c ≤ '9'

def digitValue (c : Char) : Nat := c.toNat - '0'.toNat

def readNat (ds : List Char) : Nat := ds.foldl (fun n c => n * 10 + digitValue c) 0

def noDigit (rest : List Char) : Json × List Char :=
  (.broken (if rest.isEmpty then .endedInside .number else .malformed), [])

def scanExponent (n : Numeral) (cs : List Char) : Json × List Char :=
  match cs with
  | e :: rest =>
    if e = 'e' || e = 'E' then
      let signed := match rest with
        | '+' :: r => (false, r)
        | '-' :: r => (true, r)
        | r => (false, r)
      let ds := signed.2.takeWhile isDigit
      if ds.isEmpty then noDigit signed.2
      else
        (.number { n with exponent := some ⟨signed.1, ds.map digitValue⟩ },
          signed.2.dropWhile isDigit)
    else (.number n, cs)
  | [] => (.number n, [])

def scanNumber (negative : Bool) (cs : List Char) : Json × List Char :=
  let ds := cs.takeWhile isDigit
  let rest := cs.dropWhile isDigit
  if ds.isEmpty then noDigit rest
  else if ds.head? = some '0' ∧ 1 < ds.length then (.broken .malformed, [])
  else
    let n : Numeral := ⟨negative, readNat ds, [], none⟩
    match rest with
    | '.' :: rest =>
      let fs := rest.takeWhile isDigit
      if fs.isEmpty then noDigit rest
      else scanExponent { n with fraction := fs.map digitValue } (rest.dropWhile isDigit)
    | rest => scanExponent n rest

def scanWord (token : Token) (value : Json) : List Char → List Char → Json × List Char
  | [], cs => (value, cs)
  | _ :: _, [] => (.broken (.endedInside token), [])
  | w :: ws, c :: cs => if w = c then scanWord token value ws cs else (.broken .malformed, [])

mutual

/-- The value at the start of a text, and the text after it. The fuel bounds the depth of calls
and never runs out when it exceeds twice the length of the text. -/
def scanValue : Nat → List Char → Json × List Char
  | 0, _ => (.broken .ended, [])
  | fuel + 1, cs =>
    match skipBlank cs with
    | [] => (.broken .ended, [])
    | c :: rest =>
      if c = 'n' then scanWord .null .null ['u', 'l', 'l'] rest
      else if c = 't' then scanWord .boolean (.bool true) ['r', 'u', 'e'] rest
      else if c = 'f' then scanWord .boolean (.bool false) ['a', 'l', 's', 'e'] rest
      else if c = '-' then scanNumber true rest
      else if isDigit c then scanNumber false (c :: rest)
      else if c = '"' then
        let r := scanString rest
        (.string r.1, r.2)
      else if c = '[' then
        match skipBlank rest with
        | ']' :: rest => (.array [] none, rest)
        | rest =>
          let r := scanItems fuel rest
          (.array r.1 r.2.1, r.2.2)
      else if c = '\x7b' then
        match skipBlank rest with
        | [] => (.object [] (some .ended), [])
        | '\x7d' :: rest => (.object [] none, rest)
        | rest =>
          let r := scanMembers fuel rest
          (.object r.1 r.2.1, r.2.2)
      else (.broken .malformed, [])

def scanItems : Nat → List Char → List Json × Option Stop × List Char
  | 0, _ => ([], some .ended, [])
  | fuel + 1, cs =>
    match skipBlank cs with
    | [] => ([], some .ended, [])
    | ']' :: _ => ([], some .malformed, [])
    | cs =>
      let r := scanValue fuel cs
      match r.1.stop? with
      | some s => ([r.1], some s, [])
      | none =>
        match skipBlank r.2 with
        | [] => ([r.1], some .ended, [])
        | ']' :: rest => ([r.1], none, rest)
        | ',' :: rest =>
          match skipBlank rest with
          | [] => ([r.1], some .endedAfterComma, [])
          | rest =>
            let rs := scanItems fuel rest
            (r.1 :: rs.1, rs.2.1, rs.2.2)
        | _ => ([r.1], some .malformed, [])

def scanMembers : Nat → List Char → List (Literal × Json) × Option Stop × List Char
  | 0, _ => ([], some .ended, [])
  | fuel + 1, cs =>
    match cs with
    | '"' :: rest =>
      let k := scanString rest
      match k.1.stop with
      | some s => ([(k.1, .broken s)], some s, [])
      | none =>
        match skipBlank k.2 with
        | [] => ([(k.1, .broken .ended)], some .ended, [])
        | ':' :: rest =>
          let r := scanValue fuel rest
          match r.1.stop? with
          | some s => ([(k.1, r.1)], some s, [])
          | none =>
            match skipBlank r.2 with
            | [] => ([(k.1, r.1)], some .ended, [])
            | '\x7d' :: rest => ([(k.1, r.1)], none, rest)
            | ',' :: rest =>
              match skipBlank rest with
              | [] => ([(k.1, r.1)], some .endedAfterComma, [])
              | rest =>
                let rs := scanMembers fuel rest
                ((k.1, r.1) :: rs.1, rs.2.1, rs.2.2)
            | _ => ([(k.1, r.1)], some .malformed, [])
        | _ => ([(k.1, .broken .malformed)], some .malformed, [])
    | _ => ([], some .malformed, [])

end

def read (s : String) : Json × Bool :=
  let r := scanValue (2 * s.length + 2) s.toList
  (r.1, !(skipBlank r.2).isEmpty)

end SiteFusion.Json
