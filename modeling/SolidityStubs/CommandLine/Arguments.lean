/-! # Arguments of the command

The command takes one input file, an import root, a switch for stubs only and a level of logging. An
argument that starts with two dashes is an option by its name, a value may follow it after `=` or as
the next argument; one that starts with a single dash is a group of one-letter options; `--` ends
the options.
-/
namespace SolidityStubs.CommandLine

structure Arguments where
  input : Option String
  importRoot : Option String
  stubsOnly : Bool
deriving DecidableEq, Repr

inductive ArgumentError
  | unexpected (argument : String)
  | missingValue (option : String)
  | repeated (option : String)
deriving DecidableEq, Repr

namespace ArgumentError

def message : ArgumentError → String
  | .unexpected argument =>
    "Found argument '" ++ argument ++ "' which wasn't expected, or isn't valid in this context"
  | .missingValue option =>
    "The argument '" ++ option ++ "' requires a value but none was supplied"
  | .repeated option =>
    "The argument '" ++ option ++
      "' was provided more than once, but cannot be used multiple times"

end ArgumentError

inductive Request
  | generate (arguments : Arguments)
  | version
  | help
  | refuse (error : ArgumentError)
deriving DecidableEq, Repr

inductive ValueOption
  | importRoot
  | logLevel
deriving DecidableEq, Repr

namespace ValueOption

def usage : ValueOption → String
  | .importRoot => "--importRoot <DIR>"
  | .logLevel => "--log-level <LEVEL>"

def ofName? (name : String) : Option ValueOption :=
  if name = "importRoot" ∨ name = "import-root" then some .importRoot
  else if name = "log-level" then some .logLevel
  else none

end ValueOption

inductive Word
  | separator
  | long (name : String) (value : Option String)
  | short (letters : List Char)
  | plain (text : String)
deriving DecidableEq, Repr

namespace Word

def ofLong (cs : List Char) : Word :=
  let name := cs.takeWhile (· != '=')
  match cs.dropWhile (· != '=') with
  | [] => .long (String.ofList name) none
  | value => .long (String.ofList name) (some (String.ofList (value.dropWhile (· == '='))))

def ofArgument (argument : String) : Word :=
  match argument.toList with
  | ['-', '-'] => .separator
  | '-' :: '-' :: cs => ofLong (cs.dropWhile (· == '-'))
  | '-' :: c :: cs => .short (c :: cs)
  | _ => .plain argument

end Word

structure Given where
  inputs : List String
  importRoots : List String
  importRootUses : Nat
  stubsOnlyUses : Nat
  logLevelUses : Nat
deriving DecidableEq, Repr

namespace Given

def nothing : Given := ⟨[], [], 0, 0, 0⟩

def use (g : Given) : ValueOption → Given
  | .importRoot => { g with importRootUses := g.importRootUses + 1 }
  | .logLevel => { g with logLevelUses := g.logLevelUses + 1 }

def take (g : Given) (value : String) : ValueOption → Given
  | .importRoot => { g with importRoots := g.importRoots ++ [value] }
  | .logLevel => g

def addInput (g : Given) (text : String) : Except Request Given :=
  if g.inputs.isEmpty then .ok { g with inputs := [text] }
  else .error (.refuse (.unexpected text))

/-- The request, when all arguments have been taken. A missing root is found before a repeated
option; a missing level has a default. -/
def request (g : Given) : Request :=
  if 0 < g.importRootUses ∧ g.importRoots = [] then
    .refuse (.missingValue ValueOption.importRoot.usage)
  else if 1 < g.importRootUses then .refuse (.repeated ValueOption.importRoot.usage)
  else if 1 < g.stubsOnlyUses then .refuse (.repeated "--stubs-only")
  else if 1 < g.logLevelUses then .refuse (.repeated ValueOption.logLevel.usage)
  else .generate ⟨g.inputs.head?, g.importRoots.head?, 0 < g.stubsOnlyUses⟩

end Given

def shortRequest : List Char → Request
  | 'V' :: _ => .version
  | 'h' :: _ => .help
  | c :: _ => .refuse (.unexpected (String.ofList ['-', c]))
  | [] => .refuse (.unexpected "-")

/-- Takes the arguments in turn; `waiting` is an option whose value may come next. An error says
what to do instead of going on. -/
def scan : List String → Option ValueOption → Given → Except Request Given
  | [], _, g => .ok g
  | argument :: rest, waiting, g =>
    match Word.ofArgument argument with
    | .separator => rest.foldlM Given.addInput g
    | .plain text =>
      match waiting with
      | some option => scan rest none (g.take text option)
      | none =>
        match g.addInput text with
        | .ok g => scan rest none g
        | .error request => .error request
    | .short letters => .error (shortRequest letters)
    | .long name value =>
      match ValueOption.ofName? name, value with
      | some option, some value => scan rest none ((g.use option).take value option)
      | some option, none => scan rest (some option) (g.use option)
      | none, _ =>
        if name = "stubs-only" then
          scan rest none { g with stubsOnlyUses := g.stubsOnlyUses + 1 }
        else if name = "version" then .error .version
        else if name = "help" then .error .help
        else .error (.refuse (.unexpected ("--" ++ name)))

namespace Request

def ofArguments (arguments : List String) : Request :=
  match scan arguments none .nothing with
  | .ok g => g.request
  | .error request => request

end Request

end SolidityStubs.CommandLine
