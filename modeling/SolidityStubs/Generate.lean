import SolidityStubs.Import.Loading
import SolidityStubs.Import.Path
import SolidityStubs.Source.Parse
import SolidityStubs.Stub.Render

/-! # Interfaces

An interface shows what its contract shows and what the contract inherits. An import counts as a
base if the stem of its path is the name of one; it is read from the import root, and its own stubs
are taken over. An import of a file that is still being worked on is refused, so each import finds
one file less outside the files in work and the recursion ends.
-/
namespace SolidityStubs

structure Options where
  importRoot : Path
  /-- Give the stubs without pragma and contract. -/
  stubsOnly : Bool

namespace Import

def stem? (i : Import) : Option String := (Path.ofString i.path).stem?

def isBase (i : Import) (bases : List String) : Bool :=
  i.stem?.any bases.contains

def target (i : Import) (root : Path) : String :=
  (root.join (Path.ofString i.path)).normalize.render

end Import

namespace Surface

@[irreducible]
def ofSource (source : String) : Except Failure Surface :=
  match Source.parse source with
  | .error e => .error (.malformed e)
  | .ok u =>
    match locate? u source with
    | some s => .ok s
    | none => .error .missingContract

end Surface

mutual

/-- The draft for a source, when the files in `stack` are being worked on. -/
def draft (lib : Library) (root : Path) (stack : List String) (source : String) : Loading Draft :=
  match Surface.ofSource source with
  | .error f => .fail f
  | .ok surface => do
    let blocks ← inheritedBlocks lib root stack surface.contract.bases surface.imports
    return surface.draft source blocks
termination_by (lib.countOutside stack, 1, 0)

def inheritedBlocks (lib : Library) (root : Path) (stack bases : List String) :
    List Import → Loading (List String)
  | [] => return []
  | i :: rest =>
    if i.isBase bases then
      let path := i.target root
      if hp : path ∈ stack then .fail (.cyclicImport path)
      else
        match hr : lib.read path with
        | .error cause => do
          Loading.load path
          .fail (.importRead path cause)
        | .ok text =>
          have := Library.countOutside_cons_lt hp hr
          do
            Loading.load path
            let base ← draft lib root (path :: stack) text
            let blocks ← inheritedBlocks lib root stack bases rest
            return if base.stubs.isEmpty then blocks else base.stubs :: blocks
    else inheritedBlocks lib root stack bases rest
termination_by imports => (lib.countOutside stack, 0, imports.length)

end

/-- The text of the interface, or of its stubs, when the files in `stack` are being worked on. -/
def generateAmid (lib : Library) (options : Options) (stack : List String) (source : String) :
    Loading String := do
  let d ← draft lib options.importRoot stack source
  return if options.stubsOnly then d.stubs else d.interface

def generate (lib : Library) (options : Options) (source : String) : Loading String :=
  generateAmid lib options [] source

end SolidityStubs
