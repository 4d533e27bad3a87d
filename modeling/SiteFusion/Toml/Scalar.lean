import SiteFusion.Toml.Value

namespace SiteFusion.Toml

abbrev Reader (α : Type) := List Char → Option (α × List Char)

def isBlank (c : Char) : Bool := c = ' ' || c = '\t'

def skipBlank (cs : List Char) : List Char := cs.dropWhile isBlank

def isLineChar (c : Char) : Bool := c = '\t' || (' ' ≤ c && c ≠ '\x7f')

def newline? : List Char → Option (List Char)
  | '\n' :: cs => some cs
  | '\r' :: '\n' :: cs => some cs
  | _ => none

def skipLines : List Char → List Char
  | ' ' :: cs => skipLines cs
  | '\t' :: cs => skipLines cs
  | '\n' :: cs => skipLines cs
  | '\r' :: '\n' :: cs => skipLines cs
  | cs => cs

def skipComment : List Char → List Char
  | '#' :: cs => cs.dropWhile isLineChar
  | cs => cs

def hexValue? (c : Char) : Option Nat :=
  if '0' ≤ c ∧ c ≤ '9' then some (c.toNat - '0'.toNat)
  else if 'a' ≤ c ∧ c ≤ 'f' then some (c.toNat - 'a'.toNat + 10)
  else if 'A' ≤ c ∧ c ≤ 'F' then some (c.toNat - 'A'.toNat + 10)
  else none

def hexChar (n : Nat) (cs : List Char) : Option (Char × List Char) := do
  let ds ← (cs.take n).mapM hexValue?
  let v := ds.foldl (fun v d => v * 16 + d) 0
  if ds.length = n ∧ (v < 0xD800 ∨ 0xDFFF < v ∧ v < 0x110000) then
    some (Char.ofNat v, cs.drop n)
  else none

def escape : List Char → Option (Char × List Char)
  | 'b' :: cs => some ('\x08', cs)
  | 't' :: cs => some ('\t', cs)
  | 'n' :: cs => some ('\n', cs)
  | 'f' :: cs => some ('\x0c', cs)
  | 'r' :: cs => some ('\r', cs)
  | '"' :: cs => some ('"', cs)
  | '\\' :: cs => some ('\\', cs)
  | 'u' :: cs => hexChar 4 cs
  | 'U' :: cs => hexChar 8 cs
  | _ => none

/-- The rest of a string after its quote. Every turn takes a character at least, so the length of
the text is enough for `fuel`. -/
def basicRest : Nat → Reader (List Char)
  | 0, _ => none
  | _ + 1, [] => none
  | fuel + 1, c :: cs =>
    if c = '"' then some ([], cs)
    else if c = '\\' then do
      let (d, cs) ← escape cs
      let (ds, cs) ← basicRest fuel cs
      return (d :: ds, cs)
    else if isLineChar c then do
      let (ds, cs) ← basicRest fuel cs
      return (c :: ds, cs)
    else none

def literalRest (cs : List Char) : Option (List Char × List Char) :=
  let inside := cs.takeWhile fun c => isLineChar c && c ≠ '\''
  match cs.drop inside.length with
  | '\'' :: rest => some (inside, rest)
  | _ => none

/-- A line break after a backslash, and all blanks and line breaks after it. -/
def continued? (cs : List Char) : Option (List Char) := (newline? (skipBlank cs)).map skipLines

/-- The rest of a string of several lines after its three quotes. Quotes in it stand alone or in
pairs; of five quotes at its end, the last three close it. -/
def longRest (quote : Char) : Nat → Reader (List Char)
  | 0, _ => none
  | _ + 1, [] => none
  | fuel + 1, c :: cs =>
    if c = quote then
      let run := 1 + (cs.takeWhile fun d => d = quote).length
      let rest := (c :: cs).drop run
      if 5 < run then none
      else if 3 ≤ run then some (List.replicate (run - 3) quote, rest)
      else do
        let (ds, rest) ← longRest quote fuel rest
        return (List.replicate run quote ++ ds, rest)
    else if c = '\\' && quote = '"' then
      match continued? cs with
      | some rest => longRest quote fuel rest
      | none => do
        let (d, rest) ← escape cs
        let (ds, rest) ← longRest quote fuel rest
        return (d :: ds, rest)
    else match newline? (c :: cs) with
      | some rest => do
        let (ds, rest) ← longRest quote fuel rest
        return ('\n' :: ds, rest)
      | none =>
        if isLineChar c then do
          let (ds, rest) ← longRest quote fuel cs
          return (c :: ds, rest)
        else none

/-- A string of several lines, without the line break right after its quotes. -/
def long (quote : Char) (cs : List Char) : Option (List Char × List Char) :=
  longRest quote (cs.length + 1) ((newline? cs).getD cs)

def short : Reader (List Char)
  | '"' :: cs => basicRest (cs.length + 1) cs
  | '\'' :: cs => literalRest cs
  | _ => none

def string : Reader (List Char)
  | '"' :: '"' :: '"' :: cs => long '"' cs
  | '\'' :: '\'' :: '\'' :: cs => long '\'' cs
  | cs => short cs

def isDigit (c : Char) : Bool := '0' ≤ c && c ≤ '9'

def natOf (ds : List Char) : Nat := ds.foldl (fun n c => n * 10 + (c.toNat - '0'.toNat)) 0

def digits (n low high : Nat) (cs : List Char) : Option (Nat × List Char) :=
  let ds := cs.take n
  if ds.length = n && ds.all isDigit && low ≤ natOf ds && natOf ds ≤ high then
    some (natOf ds, cs.drop n)
  else none

def char (c : Char) : List Char → Option (List Char)
  | [] => none
  | d :: cs => if c = d then some cs else none

def isLeap (year : Nat) : Bool := year % 4 = 0 && (year % 100 ≠ 0 || year % 400 = 0)

def daysIn (year month : Nat) : Nat :=
  match month with
  | 2 => if isLeap year then 29 else 28
  | 4 | 6 | 9 | 11 => 30
  | _ => 31

def afterDate (cs : List Char) : Option (List Char) := do
  let (year, cs) ← digits 4 0 9999 cs
  let cs ← char '-' cs
  let (month, cs) ← digits 2 1 12 cs
  let cs ← char '-' cs
  let (_, cs) ← digits 2 1 (daysIn year month) cs
  return cs

def afterFraction (cs : List Char) : List Char :=
  match cs with
  | '.' :: rest => if (rest.head?.map isDigit).getD false then rest.dropWhile isDigit else cs
  | _ => cs

def afterTime (cs : List Char) : Option (List Char) := do
  let (_, cs) ← digits 2 0 23 cs
  let cs ← char ':' cs
  let (_, cs) ← digits 2 0 59 cs
  let cs ← char ':' cs
  let (_, cs) ← digits 2 0 60 cs
  return afterFraction cs

def afterOffset (cs : List Char) : Option (List Char) :=
  match cs with
  | 'Z' :: rest => some rest
  | 'z' :: rest => some rest
  | '+' :: rest | '-' :: rest => do
    let (_, rest) ← digits 2 0 23 rest
    let rest ← char ':' rest
    let (_, rest) ← digits 2 0 59 rest
    return rest
  | _ => some cs

def startsWithDigits (n : Nat) (mark : Char) (cs : List Char) : Bool :=
  (cs.take n).length = n && (cs.take n).all isDigit && cs[n]? = some mark

def afterDateTime (cs : List Char) : Option (List Char) := do
  let cs ← afterDate cs
  match cs with
  | c :: rest =>
    if (c = 'T' || c = 't' || c = ' ') && startsWithDigits 2 ':' rest then do
      let rest ← afterTime rest
      afterOffset rest
    else return cs
  | [] => return cs

/-- Digits with single underscores between them, after the first digit. -/
def moreDigits (ok : Char → Bool) : Reader (List Char)
  | [] => some ([], [])
  | '_' :: cs => match cs with
    | [] => none
    | c :: cs =>
      if ok c then do
        let (ds, cs) ← moreDigits ok cs
        return (c :: ds, cs)
      else none
  | c :: cs =>
    if ok c then do
      let (ds, cs) ← moreDigits ok cs
      return (c :: ds, cs)
    else some ([], c :: cs)

def someDigits (ok : Char → Bool) : Reader (List Char)
  | [] => none
  | c :: cs =>
    if ok c then do
      let (ds, cs) ← moreDigits ok cs
      return (c :: ds, cs)
    else none

def wholeDigits : Reader (List Char)
  | '0' :: cs => some (['0'], cs)
  | cs => someDigits isDigit cs

def toInteger (negative : Bool) (n : Nat) : Option Value :=
  if negative then if n ≤ 9223372036854775808 then some (.integer (-n)) else none
  else if n < 9223372036854775808 then some (.integer n) else none

def based (base : Nat) (cs : List Char) : Option (Value × List Char) := do
  let (ds, cs) ← someDigits (fun c => ((hexValue? c).map fun d => decide (d < base)).getD false) cs
  let v ← toInteger false (ds.foldl (fun n c => n * base + (hexValue? c).getD 0) 0)
  return (v, cs)

def overflow : Nat := (Nat.pow 2 54 - 1) * Nat.pow 2 970

/-- Whether `n * 10 ^ e` is too large for a floating-point number of 64 bits. -/
def isTooLarge (n : Nat) (e : Int) : Bool :=
  let magnitude : Int := (Nat.toDigits 10 n).length + e
  if n = 0 || magnitude < 0 then false
  else if 400 < magnitude then true
  else if 0 ≤ e then overflow ≤ n * Nat.pow 10 e.toNat
  else overflow * Nat.pow 10 (-e).toNat ≤ n

def exponent (cs : List Char) : Option (List Char × Int × List Char) :=
  match cs with
  | 'e' :: rest | 'E' :: rest =>
    let (sign, negative, rest) := match rest with
      | '-' :: rest => (['-'], true, rest)
      | '+' :: rest => (['+'], false, rest)
      | rest => ([], false, rest)
    do
      let (ds, rest) ← someDigits isDigit rest
      let n : Int := natOf ds
      return ('e' :: sign ++ ds, if negative then -n else n, rest)
  | _ => some ([], 0, cs)

/-- A floating-point number, after its whole part. Negative numbers may be as large as they like. -/
def floatRest (sign whole : List Char) (cs : List Char) : Option (Value × List Char) := do
  let (fraction, cs) ← match cs with
    | '.' :: rest => someDigits isDigit rest
    | _ => some ([], cs)
  let (mark, e, cs) ← exponent cs
  let point := if fraction.isEmpty then [] else '.' :: fraction
  if sign ≠ ['-'] && isTooLarge (natOf (whole ++ fraction)) (e - fraction.length) then none
  else return (.float (String.ofList (sign ++ whole ++ point ++ mark)), cs)

def decimal (sign : List Char) (cs : List Char) : Option (Value × List Char) := do
  let (whole, cs) ← wholeDigits cs
  match cs with
  | '.' :: _ | 'e' :: _ | 'E' :: _ => floatRest sign whole cs
  | _ =>
    let v ← toInteger (sign = ['-']) (natOf whole)
    return (v, cs)

def special (sign : List Char) : Reader Value
  | 'i' :: 'n' :: 'f' :: cs => some (.float (String.ofList (sign ++ ['i', 'n', 'f'])), cs)
  | 'n' :: 'a' :: 'n' :: cs => some (.float (String.ofList (sign ++ ['n', 'a', 'n'])), cs)
  | _ => none

def signed (sign : Char) (cs : List Char) : Option (Value × List Char) :=
  match cs with
  | 'i' :: _ | 'n' :: _ => special [sign] cs
  | _ => decimal [sign] cs

def number (cs : List Char) : Option (Value × List Char) :=
  let time (rest : List Char) : Value × List Char :=
    (.time (String.ofList (cs.take (cs.length - rest.length))), rest)
  if startsWithDigits 4 '-' cs then (afterDateTime cs).map time
  else if startsWithDigits 2 ':' cs then (afterTime cs).map time
  else match cs with
    | '+' :: rest => signed '+' rest
    | '-' :: rest => signed '-' rest
    | '0' :: 'x' :: rest => based 16 rest
    | '0' :: 'o' :: rest => based 8 rest
    | '0' :: 'b' :: rest => based 2 rest
    | _ => decimal [] cs

end SiteFusion.Toml
