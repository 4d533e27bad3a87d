namespace SiteFusion

inductive Counter
  | register
  | block
  | operation
  | function
  | global
  | caseId
  | ordinal
deriving DecidableEq, Repr

/-- Why a change cannot be carried out at all. -/
inductive Abort
  | exhausted (counter : Counter)
  | unlisted (counter : Counter) (index : Nat)
  | cutBeyondEnd (index : Nat)
  | strayMarker
deriving DecidableEq, Repr

abbrev Edit (α : Type) := Except Abort α

theorem bind_eq_ok {ε α β : Type} {x : Except ε α} {f : α → Except ε β} {b : β} :
    (x >>= f) = .ok b ↔ ∃ a, x = .ok a ∧ f a = .ok b := by
  cases x with
  | error e => simp [bind, Except.bind]
  | ok a => simp [bind, Except.bind]

def Counter.next (c : Counter) (n : UInt32) : Edit UInt32 :=
  if n < 4294967295 then .ok (n + 1) else .error (.exhausted c)

def Counter.nextOrdinal (ns : List UInt64) : Edit UInt64 :=
  match ns.max? with
  | none => .ok 0
  | some n => if n < 18446744073709551615 then .ok (n + 1) else .error (.exhausted .ordinal)

end SiteFusion
