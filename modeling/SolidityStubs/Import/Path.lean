/-! # Paths

A path is a list of steps, each up or into a name, from the root or from wherever one is. Empty
pieces and single dots in its text mean nothing. Normalization cancels an upward step against the
step before it.
-/
namespace SolidityStubs

inductive Step
  | up
  | name (text : String)
deriving DecidableEq, Repr

structure Path where
  rooted : Bool
  steps : List Step
deriving DecidableEq, Repr

namespace Step

def text : Step → String
  | .up => ".."
  | .name text => text

def ofPiece? (piece : List Char) : Option Step :=
  if piece = [] ∨ piece = ['.'] then none
  else if piece = ['.', '.'] then some .up
  else some (.name (String.ofList piece))

end Step

namespace Path

def pieces : List Char → List (List Char)
  | [] => [[]]
  | c :: cs =>
    if c = '/' then [] :: pieces cs
    else
      match pieces cs with
      | [] => [[c]]
      | p :: ps => (c :: p) :: ps

def ofString (text : String) : Path :=
  ⟨text.toList.head? == some '/', (pieces text.toList).filterMap Step.ofPiece?⟩

def render (p : Path) : String :=
  (if p.rooted then "/" else "") ++ "/".intercalate (p.steps.map Step.text)

/-- Goes on with `q` from `p`; a path from the root starts over. -/
def join (p q : Path) : Path :=
  if q.rooted then q else ⟨p.rooted, p.steps ++ q.steps⟩

/-- Takes one more step, where the steps taken so far come latest first. An upward step takes back
the latest step, whatever that is, and stays if there is none. -/
def advance : List Step → Step → List Step
  | [], .up => [.up]
  | _ :: taken, .up => taken
  | taken, step => step :: taken

def normalize (p : Path) : Path :=
  ⟨p.rooted, (p.steps.foldl advance []).reverse⟩

/-- A file name without its extension: what comes before the last dot, or all of it if nothing
does. -/
def stemOfName (name : List Char) : List Char :=
  match (name.reverse.dropWhile (· != '.')).tail.reverse with
  | [] => name
  | stem => stem

def stem? (p : Path) : Option String :=
  match p.steps.getLast? with
  | some (.name text) => some (String.ofList (stemOfName text.toList))
  | _ => none

end Path

end SolidityStubs
