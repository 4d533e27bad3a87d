import SiteFusion.CommandLine.Run

namespace SiteFusion.CommandLine

/-- What went wrong with a file. -/
def FileFault.ofError : IO.Error → FileFault
  | .noFileOrDirectory _ _ _ => .missing
  | .noSuchThing _ _ _ => .missing
  | .permissionDenied _ _ _ => .denied
  | .inappropriateType _ code _ => if code = 20 then .notADirectory else .isADirectory
  | .invalidArgument file code details =>
    if code = 36 then .tooLong else .other (toString (IO.Error.invalidArgument file code details))
  | e => .other (toString e)

def diskFiles : Files BaseIO where
  read path := do
    match ← EIO.toBaseIO (IO.FS.readBinFile path) with
    | .ok bytes => match String.fromUTF8? bytes with
      | some text => return .ok text
      | none => return .error .notText
    | .error e => return .error (.ofError e)
  write path text := do
    match ← EIO.toBaseIO (IO.FS.writeFile path text) with
    | .ok _ => return .ok ()
    | .error e => return .error (.ofError e)

def performOnDisk (words : List String) : BaseIO Outcome := performLine diskFiles words

end SiteFusion.CommandLine

def main (args : List String) : IO UInt32 := do
  let outcome ← SiteFusion.CommandLine.performOnDisk args
  IO.print outcome.out
  IO.eprint outcome.err
  return outcome.code
