import SolidityStubs.Import.Library
import SolidityStubs.Source.SyntaxError

/-! # Failures

Why there is no interface, and how each cause is told.
-/
namespace SolidityStubs

inductive Failure
  | malformed (error : SyntaxError)
  | missingContract
  | importRead (path : String) (cause : ReadError)
  | cyclicImport (path : String)
deriving DecidableEq, Repr

namespace Failure

def message : Failure → String
  | .malformed error => "Failed to parse Solidity source, syntax error:\n" ++ error.report
  | .missingContract => "No contract declaration found in source"
  | .importRead path _ => "Failed to read imported file '" ++ path ++ "'"
  | .cyclicImport path => "Cyclic import detected while resolving '" ++ path ++ "'"

def causes (f : Failure) : List String :=
  f.message ::
    match f with
    | .malformed error => [error.report]
    | .importRead _ cause => [cause.message]
    | _ => []

end Failure

end SolidityStubs
