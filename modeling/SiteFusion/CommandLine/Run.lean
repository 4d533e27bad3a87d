import SiteFusion.Code.Document
import SiteFusion.CommandLine.Arguments
import SiteFusion.Fusion.SettingsFile
import SiteFusion.Machine.Run
import SiteFusion.Pipeline.Run

namespace SiteFusion.CommandLine

/-- What can go wrong with a file. -/
inductive FileFault
  | missing
  | notADirectory
  | isADirectory
  | tooLong
  | denied
  | notText
  | other (text : String)
deriving DecidableEq, Repr

def FileFault.message : FileFault → String
  | .missing => "No such file or directory (os error 2)"
  | .notADirectory => "Not a directory (os error 20)"
  | .isADirectory => "Is a directory (os error 21)"
  | .tooLong => "File name too long (os error 36)"
  | .denied => "Permission denied (os error 13)"
  | .notText => "stream did not contain valid UTF-8"
  | .other text => text

/-- Access to files. -/
structure Files (m : Type → Type) where
  read : String → m (Except FileFault String)
  write : String → String → m (Except FileFault Unit)

/-- What a command line leaves behind besides files. -/
structure Outcome where
  code : UInt32
  out : String
  err : String
deriving DecidableEq, Repr

/-- Why a command fails. -/
inductive CommandFault
  | read (path : String) (e : FileFault)
  | write (path : String) (e : FileFault)
  | settings
  | module (path : String)
  | pipeline (e : Pipeline.Fault)
  | fusion (e : FusionFault)
  | unknownFunction (name : String)
  | argumentCount (name : String) (expected found : Nat)
  | execution (e : Fault)
  | aborted (e : Abort)

def CommandFault.message : CommandFault → String
  | .read path e => "Failed to read " ++ path ++ ": " ++ e.message
  | .write path e => "Failed to write " ++ path ++ ": " ++ e.message
  | .settings => Settings.readFault
  | .module path => "Failed to parse " ++ path
  | .pipeline e => e.message
  | .fusion e => e.message
  | .unknownFunction name => "Unknown function '" ++ name ++ "'"
  | .argumentCount name expected found =>
    "'" ++ name ++ "' takes " ++ toString expected ++ " arguments, got " ++ toString found
  | .execution e => e.message
  | .aborted (.exhausted _) => "a counter stands at its last value"
  | .aborted (.unlisted _ index) => "nothing is listed under number " ++ toString index
  | .aborted (.cutBeyondEnd index) => "a block ends before index " ++ toString index
  | .aborted .strayMarker => "a marker lies beyond the end of its block"

def CommandFault.code : CommandFault → UInt32
  | .aborted _ => 101
  | _ => 1

def settingsOf (text : String) : Except CommandFault Settings :=
  match Settings.read text with
  | some s => .ok s
  | none => .error .settings

def moduleOf (path text : String) : Except CommandFault Module :=
  match Module.read text with
  | .ok m => .ok m
  | .error _ => .error (.module path)

def ofEdit {α : Type} : Edit α → Except CommandFault α
  | .ok a => .ok a
  | .error e => .error (.aborted e)

def fuse (settings : Settings) (m : Module) : Except CommandFault (Module × Report) := do
  let (m, r) ← ofEdit (Fusion.run settings m)
  match r with
  | .ok r => return (m, r)
  | .error e => throw (.fusion e)

def runPipeline (spec : String) (m : Module) : Except CommandFault (Module × Report) := do
  match ← ofEdit (Pipeline.runText spec m) with
  | .ok r => return r
  | .error e => throw (.pipeline e)

def execute (m : Module) (name : String) (args : List Int64) : Except CommandFault String :=
  match m.lookup name with
  | none => .error (.unknownFunction name)
  | some id =>
    let params := ((m.function? id).map fun f => f.signature.params).getD []
    if params.length ≠ args.length then
      .error (.argumentCount name params.length args.length)
    else
      let values := List.zipWith (fun v p => Value.ofInteger v p.ty) args params
      match ((Machine.ofModule m Machine.defaultBudget).callByName name values).2 with
      | .ok (some v) => .ok (v.text ++ "\n")
      | .ok none => .ok "void\n"
      | .error e => .error (.execution e)

def render (emit : Emit) (m : Module) : String :=
  match emit with
  | .text => m.text
  | .json => m.json.renderPretty

def alignRight (width : Nat) (s : String) : String :=
  String.ofList (List.replicate (width - s.length) ' ') ++ s

def statsText (r : Report) : String :=
  "modified: " ++ boolText r.modified ++ "\n" ++
    String.join (r.counters.map fun e => alignRight 24 e.1 ++ ": " ++ toString e.2 ++ "\n")

def versionText : String := "callfuse 0.1.0\n"

def usageText : String :=
  "Usage: callfuse run <INPUT> [-o <OUTPUT>] [--ignore-noinline] [--config <CONFIG>]\n" ++
  "                    [--emit <text|json>] [--stats] [--verify]\n" ++
  "       callfuse dump <INPUT>\n" ++
  "       callfuse pipeline <INPUT> <SPEC> [-o <OUTPUT>] [--emit <text|json>]\n" ++
  "       callfuse exec <INPUT> <FUNCTION> [ARGS]...\n"

section Files

variable {m : Type → Type} [Monad m] (files : Files m)

abbrev Action (m : Type → Type) := ExceptT CommandFault m

def readFile (path : String) : Action m String := do
  match ← files.read path with
  | .ok text => return text
  | .error e => throw (.read path e)

def loadModule (path : String) : Action m Module := do
  let text ← readFile files path
  liftM (moduleOf path text)

def loadSettings : Option String → Action m Settings
  | none => pure .default
  | some path => do
    let text ← readFile files path
    liftM (settingsOf text)

def deliver (text : String) : Option String → Action m String
  | none => pure (text ++ "\n")
  | some path => do
    match ← files.write path text with
    | .ok _ => return ""
    | .error e => throw (.write path e)

def finish (err : String) (a : Action m String) : m Outcome := do
  match ← a.run with
  | .ok out => return ⟨0, out, err⟩
  | .error e => return ⟨e.code, "", err ++ "Error: " ++ e.message ++ "\n"⟩

def performRun (input : String) (output config : Option String) (emit : Emit)
    (ignoreNoInline stats verify : Bool) : m Outcome := do
  let fused : Action m (Module × Report) := do
    let s ← loadSettings files config
    let s := { s with
      ignoreNoInline := s.ignoreNoInline || ignoreNoInline
      verify := s.verify || verify }
    let module ← loadModule files input
    liftM (fuse s module)
  match ← fused.run with
  | .error e => finish "" (throw e)
  | .ok (module, report) =>
    finish (if stats then statsText report else "") (deliver files (render emit module) output)

def perform : Command → m Outcome
  | .run input output config emit ignoreNoInline stats verify =>
    performRun files input output config emit ignoreNoInline stats verify
  | .dump input => finish "" do
    let module ← loadModule files input
    return module.text
  | .pipeline input spec output emit => finish "" do
    let module ← loadModule files input
    let (module, _) ← liftM (runPipeline spec module)
    deliver files (render emit module) output
  | .exec input function args => finish "" do
    let module ← loadModule files input
    liftM (execute module function args)

def performLine (words : List String) : m Outcome :=
  match parse words with
  | .ok command => perform files command
  | .error .help => pure ⟨0, usageText, ""⟩
  | .error .version => pure ⟨0, versionText, ""⟩
  | .error .misuse => pure ⟨2, "", usageText⟩

end Files

end SiteFusion.CommandLine
