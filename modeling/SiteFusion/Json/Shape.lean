import SiteFusion.Json.Reader
import SiteFusion.Table

namespace SiteFusion

abbrev Shape (α : Type) := Nat → Json → Except Defect α

namespace Shape

variable {α β δ κ ν : Type}

def unwanted : Json → Defect
  | .broken s => s.defect
  | .string s => match s.text with
    | .error d => d
    | .ok _ => .mismatched
  | .number n => if n.toFloat?.isNone then .malformed else .mismatched
  | _ => .mismatched

def integer (low high : Int) : Shape Int := fun _ j =>
  match j with
  | .number n => match n.toInt? with
    | some i => if low ≤ i ∧ i ≤ high then .ok i else .error .mismatched
    | none => .error (unwanted j)
  | j => .error (unwanted j)

def word32 : Shape UInt32 := fun depth j =>
  (integer 0 4294967295 depth j).map fun i => i.toNat.toUInt32

def byte : Shape UInt8 := fun depth j => (integer 0 255 depth j).map fun i => i.toNat.toUInt8

def float : Shape Float := fun _ j =>
  match j with
  | .number n => match n.toFloat? with
    | some x => .ok x
    | none => .error .malformed
  | j => .error (unwanted j)

def bool : Shape Bool := fun _ j =>
  match j with
  | .bool b => .ok b
  | j => .error (unwanted j)

def string : Shape String := fun _ j =>
  match j with
  | .string s => s.text
  | j => .error (unwanted j)

/-- Either null or a value of the given shape. What begins like null is taken for it. -/
def optional (shape : Shape α) : Shape (Option α) := fun depth j =>
  match j with
  | .null => .ok none
  | .broken (.endedInside .null) => .error .truncated
  | j => (shape depth j).map some

def mapShape (shape : Shape α) (f : α → β) : Shape β := fun depth j => (shape depth j).map f

def close (stop : Option Stop) (a : α) : Except Defect α :=
  match stop with
  | none => .ok a
  | some s => .error s.defect

/-- The end of a structure that takes nothing more, so that a comma is one too many. -/
def closeFull (stop : Option Stop) (a : α) : Except Defect α :=
  match stop with
  | some .endedAfterComma => .error .malformed
  | stop => close stop a

def tooFew (stop : Option Stop) : Defect :=
  match stop with
  | none => .mismatched
  | some s => s.defect

def skip (j : Json) : Except Defect Unit :=
  match j.stop? with
  | none => .ok ()
  | some s => .error s.skippedDefect

def items (shape : Json → Except Defect α) : List Json → Except Defect (List α)
  | [] => .ok []
  | j :: js => do
    let a ← shape j
    let as ← items shape js
    return a :: as

def list (shape : Shape α) : Shape (List α) := fun depth j =>
  match j with
  | .array js stop =>
    if depth = 0 then .error .malformed
    else do
      let as ← items (shape (depth - 1)) js
      close stop as
  | j => .error (unwanted j)

def exactItems (shape : Json → Except Defect α) (stop : Option Stop) :
    Nat → List Json → Except Defect (List α)
  | 0, [] => closeFull stop []
  | 0, _ :: _ => .error .malformed
  | _ + 1, [] => .error (tooFew stop)
  | n + 1, j :: js => do
    let a ← shape j
    let as ← exactItems shape stop n js
    return a :: as

def vector (n : Nat) (shape : Shape α) : Shape (List α) := fun depth j =>
  match j with
  | .array js stop =>
    if depth = 0 then .error .malformed else exactItems (shape (depth - 1)) stop n js
  | j => .error (unwanted j)

def pair (first : Shape α) (second : Shape β) : Shape (α × β) := fun depth j =>
  match j with
  | .array js stop =>
    if depth = 0 then .error .malformed
    else match js with
      | [] => .error (tooFew stop)
      | [j] => do
        let _ ← first (depth - 1) j
        .error (tooFew stop)
      | [j, k] => do
        let a ← first (depth - 1) j
        let b ← second (depth - 1) k
        closeFull stop (a, b)
      | j :: k :: _ => do
        let _ ← first (depth - 1) j
        let _ ← second (depth - 1) k
        .error .malformed
  | j => .error (unwanted j)

def numericKey (k : Literal) : Except Defect UInt32 :=
  match k.raw with
  | [] => .error .malformed
  | c :: rest =>
    if Json.isDigit c || c = '-' then
      let r := if c = '-' then Json.scanNumber true rest else Json.scanNumber false k.raw
      match r.1 with
      | .broken (.endedInside _) =>
        .error (if k.stop = some (.endedInside .string) then .truncated else .malformed)
      | j => do
        let n ← word32 0 j
        if r.2.isEmpty ∧ k.stop.isNone then .ok n else .error .malformed
    else .error .malformed

def entries [DecidableEq κ] (key : UInt32 → κ) (shape : Json → Except Defect ν) :
    Table κ ν → List (Literal × Json) → Except Defect (Table κ ν)
  | t, [] => .ok t
  | t, (k, j) :: ms => do
    let n ← numericKey k
    let v ← shape j
    entries key shape (t.insert (key n) v) ms

def table [DecidableEq κ] (key : UInt32 → κ) (shape : Shape ν) : Shape (Table κ ν) :=
  fun depth j =>
    match j with
    | .object ms stop =>
      if depth = 0 then .error .malformed
      else do
        let t ← entries key (shape (depth - 1)) .empty ms
        close stop t
    | j => .error (unwanted j)

/-- When a field may be left out. -/
inductive Absence
  | refused
  | allowed
  | allowedByName
deriving DecidableEq

/-- A field of a structure that is put together in a draft of type `δ`. -/
structure Field (δ : Type) where
  name : String
  absence : Absence
  present : δ → Bool
  read : Nat → Json → δ → Except Defect δ

def field (name : String) (shape : Shape α) (present : δ → Bool) (put : α → δ → δ)
    (absence : Absence) : Field δ :=
  ⟨name, absence, present, fun depth j d => (shape depth j).map fun a => put a d⟩

def namedFields (fields : List (Field δ)) (depth : Nat) :
    δ → List (Literal × Json) → Except Defect δ
  | d, [] => .ok d
  | d, (k, j) :: ms => do
    let name ← k.text
    match fields.find? fun f => f.name = name with
    | none => do
      skip j
      namedFields fields depth d ms
    | some f =>
      if f.present d then .error .mismatched
      else do
        let d ← f.read depth j d
        namedFields fields depth d ms

def listedFields (depth : Nat) (stop : Option Stop) :
    List (Field δ) → δ → List Json → Except Defect δ
  | [], d, [] => closeFull stop d
  | [], _, _ :: _ => .error .malformed
  | f :: fs, d, [] =>
    match stop with
    | some s => .error s.defect
    | none => if (f :: fs).all fun f => f.absence = .allowed then .ok d else .error .mismatched
  | f :: fs, d, j :: js => do
    let d ← f.read depth j d
    listedFields depth stop fs d js

def record (fields : List (Field δ)) (draft : δ) (finish : δ → Option α) : Shape α :=
  fun depth j =>
    let complete : δ → Except Defect α := fun d =>
      match finish d with
      | some a => .ok a
      | none => .error .mismatched
    match j with
    | .object ms stop =>
      if depth = 0 then .error .malformed
      else do
        let d ← namedFields fields (depth - 1) draft ms
        let d ← close stop d
        if fields.all fun f => f.present d || f.absence ≠ .refused then complete d
        else .error .mismatched
    | .array js stop =>
      if depth = 0 then .error .malformed
      else do
        let d ← listedFields (depth - 1) stop fields draft js
        complete d
    | j => .error (unwanted j)

/-- The fields of a structure of type `α`, with the draft that they fill in one by one. -/
structure Fields (δ α : Type) where
  list : List (Field δ)
  draft : δ
  finish : δ → Option α

namespace Fields

def required (name : String) (shape : Shape α) : Fields (Option α) α :=
  ⟨[field name shape Option.isSome (fun a _ => some a) .refused], none, id⟩

def defaulted (name : String) (shape : Shape α) (a : α) : Fields (Option α) α :=
  ⟨[field name shape Option.isSome (fun a _ => some a) .allowed], none, fun d => some (d.getD a)⟩

def omissible (name : String) (shape : Shape α) : Fields (Option (Option α)) (Option α) :=
  ⟨[field name (optional shape) Option.isSome (fun a _ => some a) .allowedByName], none,
    fun d => some d.join⟩

def onFirst {ε : Type} (f : Field δ) : Field (δ × ε) :=
  ⟨f.name, f.absence, fun d => f.present d.1,
    fun depth j d => (f.read depth j d.1).map fun a => (a, d.2)⟩

def onSecond {ε : Type} (f : Field ε) : Field (δ × ε) :=
  ⟨f.name, f.absence, fun d => f.present d.2,
    fun depth j d => (f.read depth j d.2).map fun b => (d.1, b)⟩

def and {ε : Type} (a : Fields δ α) (b : Fields ε β) : Fields (δ × ε) (α × β) :=
  ⟨a.list.map onFirst ++ b.list.map onSecond, (a.draft, b.draft), fun d => do
    let x ← a.finish d.1
    let y ← b.finish d.2
    return (x, y)⟩

def shape (a : Fields δ α) (f : α → β) : Shape β :=
  record a.list a.draft fun d => (a.finish d).map f

end Fields

/-- One alternative of a choice: its name alone, or its name with a value. -/
inductive Variant (α : Type)
  | plain (a : α)
  | carrying (shape : Shape α)

/-- A choice between named alternatives. Where there is neither a string nor a brace, it does not
matter what else there is. -/
def choice (variants : String → Option (Variant α)) : Shape α := fun depth j =>
  match j with
  | .string s => do
    let name ← s.text
    match variants name with
    | some (.plain a) => .ok a
    | _ => .error .mismatched
  | .object ms stop =>
    if depth = 0 then .error .malformed
    else match ms with
      | [] => .error (stop.getD .malformed).defect
      | (k, j) :: rest => do
        let name ← k.text
        let a ← match variants name with
          | none => Except.error Defect.mismatched
          | some (.plain a) => match j with
            | .null => .ok a
            | j => .error (unwanted j)
          | some (.carrying shape) => shape (depth - 1) j
        if rest.isEmpty then closeFull stop a else .error .malformed
  | .broken .ended => .error .truncated
  | _ => .error .malformed

def name (names : List (String × α)) : Shape α :=
  choice fun s => (names.lookup s).map .plain

def depthLimit : Nat := 127

def readText (shape : Shape α) (s : String) : Except Defect α :=
  let r := Json.read s
  do
    let a ← shape depthLimit r.1
    if r.2 then .error .malformed else .ok a

end Shape

end SiteFusion
