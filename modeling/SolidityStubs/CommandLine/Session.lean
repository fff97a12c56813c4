import SolidityStubs.CommandLine.Arguments
import SolidityStubs.Generate

/-! # Sessions of the command

A session maps the arguments and what the command can see to what it writes and how it ends.
-/
namespace SolidityStubs.CommandLine

structure Environment where
  /-- The working directory, from the root. -/
  workingDirectory : String
  stdin : Except ReadError String
  /-- Reads the input file. -/
  readInput : String → Except ReadError String
  /-- Holds what imports can find. -/
  library : Library

def decode (bytes : ByteArray) : Except ReadError String :=
  match String.fromUTF8? bytes with
  | some text => .ok text
  | none => .error .invalidText

structure Outcome where
  exitCode : Nat
  stdout : String
  stderr : String
deriving DecidableEq, Repr

def versionText : String := "sol-interface 0.1.0"

def helpText : String :=
  "\n".intercalate [
    versionText,
    "Generates an interface contract in Solidity from a given contract.",
    "Pass contract source on stdin or as a file argument.",
    "",
    "Example:",
    "  $ sol-interface < MyContract.sol",
    "",
    "USAGE:",
    "    sol-interface [FLAGS] [OPTIONS] [INPUT]",
    "",
    "FLAGS:",
    "    -h, --help          Prints help information",
    "        --stubs-only    Print only the stub lines, without pragma or contract wrapper",
    "    -V, --version       Prints version information",
    "",
    "OPTIONS:",
    "        --importRoot <DIR>     Specify the root import directory " ++
      "(defaults to the current directory)",
    "        --log-level <LEVEL>    Log level filter when RUST_LOG is unset " ++
      "(e.g. debug, info, warn) [default: warn]",
    "",
    "ARGS:",
    "    <INPUT>    Input Solidity file, read from stdin when omitted"]

structure Trouble where
  context : String
  causes : List String
deriving DecidableEq, Repr

namespace Trouble

def indent (margin : String) (text : String) : String :=
  String.ofList (text.toList.flatMap fun c => if c == '\n' then '\n' :: margin.toList else [c])

def causeLines : List String → List String
  | [cause] => ["    " ++ indent "    " cause]
  | causes => causes.mapIdx fun n cause => "    " ++ toString n ++ ": " ++ indent "       " cause

def message (t : Trouble) : String :=
  "\n".intercalate (("Error: " ++ t.context) :: "" :: "Caused by:" :: causeLines t.causes)

end Trouble

namespace Arguments

def options (a : Arguments) (env : Environment) : Options where
  importRoot := .ofString (a.importRoot.getD env.workingDirectory)
  stubsOnly := a.stubsOnly

def source (a : Arguments) (env : Environment) : Except Trouble String :=
  match a.input with
  | some path =>
    match env.readInput path with
    | .ok text => .ok text
    | .error e => .error ⟨"Failed to read input file: " ++ path, [e.message]⟩
  | none =>
    match env.stdin with
    | .ok text => .ok text
    | .error e => .error ⟨"Failed to read contract source from stdin", [e.message]⟩

def generate (a : Arguments) (env : Environment) (source : String) : Loading String :=
  SolidityStubs.generate env.library (a.options env) source

def output (a : Arguments) (env : Environment) : Except Trouble String :=
  match a.source env with
  | .error t => .error t
  | .ok text =>
    match (a.generate env text).result with
    | .ok interface => .ok interface
    | .error f => .error ⟨"Failed to generate interface", f.causes⟩

end Arguments

namespace Request

def outcome (r : Request) (env : Environment) : Outcome :=
  match r with
  | .version => ⟨0, versionText ++ "\n", ""⟩
  | .help => ⟨0, helpText ++ "\n", ""⟩
  | .refuse e => ⟨1, "", "error: " ++ e.message ++ "\n"⟩
  | .generate a =>
    match a.output env with
    | .ok text => ⟨0, text ++ "\n", ""⟩
    | .error t => ⟨1, "", t.message ++ "\n"⟩

end Request

end SolidityStubs.CommandLine
