import SiteFusion.CommandLine.Run

namespace SiteFusion.CommandLine

abbrev Directory := Table String String

namespace Directory

/-- Where a path can lead. -/
inductive Place
  | here
  | top
  | devices
  | below
  | file (name : String)
  | sink
  | nothing
deriving DecidableEq, Repr

def topNames : List String :=
  ["bin", "dev", "etc", "home", "lib", "opt", "proc", "root", "run", "sbin", "sys", "tmp", "usr",
    "var"]

def named (d : Directory) (name : String) : Place → Place
  | .here => if d.contains name then .file name else .nothing
  | .top =>
    if name = "dev" then .devices else if topNames.contains name then .below else .nothing
  | .devices => if name = "null" then .sink else .nothing
  | _ => .nothing

def step (d : Directory) (place : Place) (part : String) : Except FileFault Place :=
  match place with
  | .file _ | .sink => .error .notADirectory
  | .nothing => .error .missing
  | place =>
    if part = "." then .ok place
    else if part = ".." then .ok (if place = .here then .below else .top)
    else if 255 < part.utf8ByteSize then .error .tooLong
    else .ok (d.named part place)

def parts (path : String) : List String := (path.splitOn "/").filter (· ≠ "")

def follow (d : Directory) (path : String) (parts : List String) : Except FileFault Place :=
  if 4096 ≤ path.utf8ByteSize then .error .tooLong
  else if path = "" then .error .missing
  else parts.foldlM d.step (if path.startsWith "/" then .top else .here)

def read (d : Directory) (path : String) : Except FileFault String := do
  match ← d.follow path (parts path) with
  | .file name =>
    if path.endsWith "/" then throw .notADirectory
    match d.get? name with
    | some text => return text
    | none => throw .missing
  | .sink => if path.endsWith "/" then throw .notADirectory else return ""
  | .nothing => throw .missing
  | _ => throw .isADirectory

/-- Put a text at the end of a path, which is a new name or that of a file. With a slash at the end
it could only be a directory. What is written outside the directory is not kept. -/
def write (d : Directory) (path text : String) : Except FileFault Directory := do
  let place ← d.follow path (parts path).dropLast
  match (parts path).getLast? with
  | none => throw .isADirectory
  | some part =>
    let next ← d.step place (if path.endsWith "/" then "." else part)
    match place, next with
    | _, .file name => return d.insert name text
    | .here, .nothing => return d.insert part text
    | _, .nothing | _, .sink => return d
    | _, _ => throw .isADirectory

def files : Files (StateM Directory) where
  read path := do return (← get).read path
  write path text := do
    match (← get).write path text with
    | .ok d =>
      set d
      return .ok ()
    | .error e => return .error e

end Directory

def performIn (d : Directory) (words : List String) : Outcome × Directory :=
  StateT.run (performLine Directory.files words) d

end SiteFusion.CommandLine
