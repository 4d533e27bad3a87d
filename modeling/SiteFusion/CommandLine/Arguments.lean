import SiteFusion.Text.Decimal

namespace SiteFusion.CommandLine

/-- The form in which a module is written. -/
inductive Emit
  | text
  | json
deriving DecidableEq, Repr

inductive Command
  | run (input : String) (output config : Option String) (emit : Emit)
    (ignoreNoInline stats verify : Bool)
  | dump (input : String)
  | pipeline (input spec : String) (output : Option String) (emit : Emit)
  | exec (input function : String) (args : List Int64)
deriving DecidableEq, Repr

/-- Why a command line has no command. -/
inductive Refusal
  | help
  | version
  | misuse
deriving DecidableEq, Repr

/-- The options and arguments of a command, and which values they may have. -/
structure Options where
  flags : List String
  valued : List (String × (String → Bool))
  positional : Nat → Option (String → Bool)
  numeric : Nat → Bool

/-- What was found so far. -/
structure Found where
  flags : List String
  values : List (String × String)
  arguments : List String
  pending : Option String
  ended : Bool

namespace Found

def empty : Found := ⟨[], [], [], none, false⟩

def value? (f : Found) (name : String) : Option String := f.values.lookup name

def has (f : Found) (name : String) : Bool := f.flags.contains name

def addArgument (o : Options) (f : Found) (s : String) : Except Refusal Found :=
  match o.positional f.arguments.length with
  | none => .error .misuse
  | some ok => if ok s then .ok { f with arguments := f.arguments ++ [s] } else .error .misuse

def addValue (o : Options) (f : Found) (name s : String) : Except Refusal Found :=
  match o.valued.lookup name, f.value? name with
  | some ok, none =>
    if ok s then .ok { f with values := (name, s) :: f.values, pending := none }
    else .error .misuse
  | _, _ => .error .misuse

def addOption (o : Options) (f : Found) (name : String) : Option String → Except Refusal Found
  | some s => f.addValue o name s
  | none =>
    if name = "help" then .error .help
    else if o.flags.contains name ∧ ¬ f.has name then .ok { f with flags := name :: f.flags }
    else if (o.valued.lookup name).isSome then .ok { f with pending := some name }
    else .error .misuse

def splitValue (cs : List Char) : String × Option String :=
  let name := cs.takeWhile fun c => c ≠ '='
  let value := match cs.drop name.length with
    | [] => none
    | _ :: rest => some (String.ofList rest)
  (String.ofList name, value)

/-- Digits with at most one point and one exponent, neither in front, and the exponent not empty. -/
def isNumber (cs : List Char) : Bool :=
  let mantissa := cs.takeWhile fun c => c ≠ 'e'
  let rest := cs.drop mantissa.length
  let exponentOk := match rest with
    | [] => true
    | _ :: ds => !ds.isEmpty && !mantissa.isEmpty && ds.all Char.isDigit
  let plain := mantissa.filter fun c => c ≠ '.'
  exponentOk && plain.all Char.isDigit && mantissa.length ≤ plain.length + 1 &&
    mantissa.head? ≠ some '.'

def addLetter (o : Options) (f : Found) (c : Char) (rest : List Char) : Except Refusal Found :=
  if c = 'h' then .error .help
  else if c = 'o' then
    match rest with
    | [] => f.addOption o "output" none
    | '=' :: rest => f.addOption o "output" (some (String.ofList rest))
    | rest => f.addOption o "output" (some (String.ofList rest))
  else .error .misuse

def add (o : Options) (f : Found) (s : String) : Except Refusal Found :=
  if f.ended then f.addArgument o s
  else match s.toList, f.pending with
    | '-' :: c :: rest, pending =>
      if o.numeric f.arguments.length && isNumber (c :: rest) then f.addArgument o s
      else if pending.isSome then .error .misuse
      else if c = '-' then
        if rest.isEmpty then .ok { f with ended := true }
        else
          let (name, value) := splitValue rest
          f.addOption o name value
      else f.addLetter o c rest
    | _, some name => f.addValue o name s
    | _, none => f.addArgument o s

end Found

def scan (o : Options) (words : List String) : Except Refusal Found := do
  let f ← words.foldlM (fun f s => f.add o s) Found.empty
  if f.pending.isSome then .error .misuse else return f

def integer? (s : String) : Option Int64 :=
  let (negative, ds) := match s.toList with
    | '-' :: ds => (true, ds)
    | '+' :: ds => (false, ds)
    | ds => (false, ds)
  let n : Nat := ds.foldl (fun n c => n * 10 + (c.toNat - '0'.toNat)) 0
  if ds.isEmpty || !ds.all Char.isDigit then none
  else if negative then if n ≤ 9223372036854775808 then some (Int64.ofInt (-n)) else none
  else if n < 9223372036854775808 then some (Int64.ofNat n) else none

def emit? : String → Option Emit
  | "text" => some .text
  | "json" => some .json
  | _ => none

def isPath (s : String) : Bool := s ≠ ""

def outputOptions : List (String × (String → Bool)) :=
  [("output", isPath), ("emit", fun s => (emit? s).isSome)]

def runOptions : Options :=
  { flags := ["ignore-noinline", "stats", "verify"]
    valued := ("config", isPath) :: outputOptions
    positional := fun i => if i = 0 then some isPath else none
    numeric := fun _ => false }

def dumpOptions : Options :=
  { flags := []
    valued := []
    positional := fun i => if i = 0 then some isPath else none
    numeric := fun _ => false }

def pipelineOptions : Options :=
  { flags := []
    valued := outputOptions
    positional := fun i =>
      if i = 0 then some isPath else if i = 1 then some fun _ => true else none
    numeric := fun _ => false }

def execOptions : Options :=
  { flags := []
    valued := []
    positional := fun i =>
      if i = 0 then some isPath
      else if i = 1 then some fun _ => true
      else some fun s => (integer? s).isSome
    numeric := fun i => 2 ≤ i }

def Found.emit (f : Found) : Emit := ((f.value? "emit").bind emit?).getD .json

def runCommand (words : List String) : Except Refusal Command := do
  let f ← scan runOptions words
  match f.arguments with
  | [input] =>
    return .run input (f.value? "output") (f.value? "config") f.emit (f.has "ignore-noinline")
      (f.has "stats") (f.has "verify")
  | _ => .error .misuse

def dumpCommand (words : List String) : Except Refusal Command := do
  let f ← scan dumpOptions words
  match f.arguments with
  | [input] => return .dump input
  | _ => .error .misuse

def pipelineCommand (words : List String) : Except Refusal Command := do
  let f ← scan pipelineOptions words
  match f.arguments with
  | [input, spec] => return .pipeline input spec (f.value? "output") f.emit
  | _ => .error .misuse

def execCommand (words : List String) : Except Refusal Command := do
  let f ← scan execOptions words
  match f.arguments with
  | input :: function :: args => return .exec input function (args.filterMap integer?)
  | _ => .error .misuse

def commands : List (String × (List String → Except Refusal Command)) :=
  [("run", runCommand), ("dump", dumpCommand), ("pipeline", pipelineCommand),
    ("exec", execCommand)]

def helpCommand : List String → Refusal
  | [] => .help
  | [name] => if (commands.lookup name).isSome ∨ name = "help" then .help else .misuse
  | _ => .misuse

def parse (words : List String) : Except Refusal Command :=
  match words with
  | [] => .error .misuse
  | word :: rest => match commands.lookup word with
    | some command => command rest
    | none =>
      if word = "help" then .error (helpCommand rest)
      else match word.toList with
        | '-' :: 'h' :: _ => .error .help
        | '-' :: 'V' :: _ => .error .version
        | _ =>
          if word = "--help" then .error .help
          else if word = "--version" then .error .version
          else .error .misuse

end SiteFusion.CommandLine
