import SolidityStubs.CommandLine.Session

/-! # The command

Reads files as they are asked for and prints the outcome of the session.
-/
namespace SolidityStubs.CommandLine

def readErrorOf : IO.Error → ReadError
  | .noFileOrDirectory _ _ _ => .notFound
  | .inappropriateType _ code _ =>
    if code.toNat == 21 then .isADirectory else .notADirectory
  | .permissionDenied _ _ _ => .permissionDenied
  | .invalidArgument _ code details =>
    if code == 36 || 0 - code == 36 then .nameTooLong else .other details
  | e => .other (toString e)

def readDisk (path : String) : IO (Except ReadError String) := do
  if path.toList.contains '\x00' then return .error .nulInName
  try
    return decode (← IO.FS.readBinFile path)
  catch e =>
    return .error (readErrorOf e)

abbrev Known := List (String × Except ReadError String)

def Known.library (known : Known) : Library where
  files := known.filterMap fun (path, content) =>
    match content with
    | .ok text => some (path, text)
    | .error _ => none
  fault path :=
    match known.lookup path with
    | some (.error e) => e
    | _ => .notFound

/-- Reads files until the result no longer asks for a new one. A result depends only on the files
that it asked for, so the last one is right. -/
partial def readImports (a : Arguments) (env : Environment) (source : String) (known : Known) :
    IO Known := do
  let loads := (a.generate { env with library := known.library } source).loads
  match loads.find? fun path => (known.lookup path).isNone with
  | none => return known
  | some path => readImports a env source ((path, ← readDisk path) :: known)

def readStdin : IO (Except ReadError String) := do
  return decode (← (← IO.getStdin).readBinToEnd)

/-- Gathers what a session needs to see. -/
def gather (a : Arguments) : IO Environment := do
  let workingDirectory := toString (← IO.currentDir)
  let read ← match a.input with
    | some path => readDisk path
    | none => readStdin
  let env : Environment :=
    { workingDirectory, stdin := read, readInput := fun _ => read, library := .ofFiles [] }
  match read with
  | .error _ => return env
  | .ok source => return { env with library := (← readImports a env source []).library }

def session (arguments : List String) : IO Outcome := do
  let request := Request.ofArguments arguments
  match request with
  | .generate a => return request.outcome (← gather a)
  | _ =>
    let unseen : Except ReadError String := .error .notFound
    return request.outcome ⟨"", unseen, fun _ => unseen, .ofFiles []⟩

end SolidityStubs.CommandLine

def main (arguments : List String) : IO UInt32 := do
  let outcome ← SolidityStubs.CommandLine.session arguments
  IO.print outcome.stdout
  IO.eprint outcome.stderr
  return outcome.exitCode.toUInt32
