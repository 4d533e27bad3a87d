import SiteFusion.Fusion.Settings
import SiteFusion.Toml.Reader

namespace SiteFusion.Settings

variable {α : Type}

/-- The value under a key, or a default where there is none. A value of another kind is refused. -/
def field (es : Toml.Entries) (key : String) (kind : Toml.Value → Option α) (default : α) :
    Option α :=
  match es.lookup key with
  | none => some default
  | some v => kind v

def boolean? : Toml.Value → Option Bool
  | .boolean b => some b
  | _ => none

def natural? : Toml.Value → Option Nat
  | .integer i => i.toNat?
  | _ => none

def string? : Toml.Value → Option String
  | .string s => some s
  | _ => none

def ofEntries (es : Toml.Entries) : Option Settings := do
  let ignoreNoInline ← field es "ignore-no-inline" boolean? default.ignoreNoInline
  let maxIterations ← field es "max-iterations" natural? default.maxIterations
  let prepare ← field es "prepare-pipeline" string? default.prepare
  let cleanup ← field es "cleanup-pipeline" string? default.cleanup
  let verify ← field es "verify" boolean? default.verify
  return { ignoreNoInline, maxIterations, prepare, cleanup, verify }

def read (s : String) : Option Settings := do
  let es ← Toml.read s
  ofEntries es

def readFault : String := "Failed to parse fuse config"

end SiteFusion.Settings
