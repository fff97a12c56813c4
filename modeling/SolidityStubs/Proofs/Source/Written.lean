import SolidityStubs.Source.Grammar
import SolidityStubs.Source.Declaration

/-! # Declarations as they are written

A form is a declaration without layout. `tokens` writes it down and `decl` is what should be read
back. Forms cannot be built from words that the grammar would read otherwise.
-/
namespace SolidityStubs

open Source

def isIdentifier : List Char → Bool
  | [] => false
  | c :: cs => isIdentifierStart c && cs.all isIdentifierChar

def reservedWords : List String :=
  Keyword.all.map Keyword.spelling ++ ["contract", "library", "interface"] ++ storageWords ++
    attributeWords ++ ["payable"]

structure Identifier where
  text : String
  isIdentifier : isIdentifier text.toList = true

/-- An identifier that can be declared or name a type. -/
structure Name extends Identifier where
  notReserved : text ∉ reservedWords

structure Dotted (α : Type) where
  first : α
  more : List α

namespace Dotted

variable {α β : Type}

def map (f : α → β) (d : Dotted α) : Dotted β := ⟨f d.first, d.more.map f⟩

def parts (d : Dotted α) : List α := d.first :: d.more

def text (d : Dotted Identifier) : String := ".".intercalate (d.parts.map (·.text))

end Dotted

abbrev DottedName := Dotted Name

def DottedName.text (d : DottedName) : String := (d.map Name.toIdentifier).text

inductive TypeForm
  | named (path : DottedName)
  | mapping (key value : TypeForm)
  | array (element : TypeForm)

def TypeName.withLiteral (literal : String) : TypeName → TypeName
  | .named _ => .named literal
  | .mapping key value _ => .mapping key value literal

namespace TypeForm

def tokens : TypeForm → List String
  | .named path => [path.text]
  | .mapping key value => ["mapping", "("] ++ key.tokens ++ ["=>"] ++ value.tokens ++ [")"]
  | .array element => element.tokens ++ ["[", "]"]

def text (t : TypeForm) : String := " ".intercalate t.tokens

/-- An array of mappings counts as a mapping. -/
def decl : TypeForm → TypeName
  | .named path => .named path.text
  | .mapping key value => .mapping key.decl value.decl (mapping key value).text
  | .array element => element.decl.withLiteral (array element).text

def base : TypeForm → TypeForm
  | .array element => element.base
  | .named path => .named path
  | .mapping key value => .mapping key value

def suffixes : TypeForm → List Unit
  | .array element => element.suffixes ++ [()]
  | .named _ | .mapping _ _ => []

theorem tokens_eq (t : TypeForm) :
    t.tokens = t.base.tokens ++ t.suffixes.flatMap fun _ => ["[", "]"] := by
  induction t with
  | named path => simp [base, suffixes]
  | mapping key value => simp [base, suffixes]
  | array element ih => simp [tokens, base, suffixes, ih]

end TypeForm

def separateTokens : List (List String) → List String
  | [] => []
  | group :: groups => group ++ groups.flatMap ("," :: ·)

structure ParameterForm where
  type : TypeForm
  name : Option Name

namespace ParameterForm

def tokens (p : ParameterForm) : List String :=
  p.type.tokens ++ p.name.toList.map (·.text)

def decl (p : ParameterForm) : Parameter := ⟨p.type.decl, p.name.map (·.text), ⟨0, 0⟩⟩

def listTokens (ps : List ParameterForm) : List String :=
  "(" :: separateTokens (ps.map tokens) ++ [")"]

end ParameterForm

inductive HeadForm
  | function (name : Option Name)
  | constructor
  | fallback
  | receive

namespace HeadForm

def tokens : HeadForm → List String
  | .function name => "function" :: name.toList.map (·.text)
  | .constructor => ["constructor"]
  | .fallback => ["fallback"]
  | .receive => ["receive"]

def kind : HeadForm → FunctionKind
  | .function _ => .function
  | .constructor => .constructor
  | .fallback => .fallback
  | .receive => .receive

def name? : HeadForm → Option String
  | .function name => name.map (·.text)
  | _ => none

end HeadForm

/-- A modifier without arguments. Also words that are reserved elsewhere can be modifiers. -/
structure ModifierForm where
  path : Dotted Identifier
  notReturns : path.text ≠ "returns"

structure FunctionForm where
  head : HeadForm
  params : List ParameterForm
  modifiers : List ModifierForm
  returns : Option (List ParameterForm)
  hasBody : Bool

namespace FunctionForm

def returnsTokens (f : FunctionForm) : List String :=
  (f.returns.map fun ps => "returns" :: ParameterForm.listTokens ps).getD []

def endTokens (f : FunctionForm) : List String :=
  if f.hasBody then ["\x7b", "\x7d"] else [";"]

def tokens (f : FunctionForm) : List String :=
  f.head.tokens ++ (ParameterForm.listTokens f.params ++
    (f.modifiers.map (·.path.text) ++ (f.returnsTokens ++ f.endTokens)))

def decl (f : FunctionForm) : FunctionDecl where
  kind := f.head.kind
  name := f.head.name?
  params := f.params.map (·.decl)
  paramsSpan := ⟨0, 0⟩
  modifiers := (f.modifiers.map (·.path.text) ++ f.returns.toList.map fun _ => "returns").map
    fun name => ⟨name, ⟨0, 0⟩⟩
  span := ⟨0, 0⟩

end FunctionForm

structure AttributeForm where
  text : String
  isAttribute : text ∈ attributeWords

structure VariableForm where
  type : TypeForm
  attributes : List AttributeForm
  name : Name

namespace VariableForm

def tokens (v : VariableForm) : List String :=
  v.type.tokens ++ (v.attributes.map (·.text) ++ [v.name.text, ";"])

def decl (v : VariableForm) : VariableDecl where
  name := v.name.text
  typeName := v.type.decl
  isPublic := v.attributes.any (·.text == "public")
  isConstant := v.attributes.any (·.text == "constant")
  span := ⟨0, 0⟩

end VariableForm

structure EnumForm where
  name : Name
  values : List Name

namespace EnumForm

def tokens (e : EnumForm) : List String :=
  "enum" :: e.name.text :: "\x7b" :: separateTokens (e.values.map fun v => [v.text]) ++ ["\x7d"]

def decl (e : EnumForm) : EnumDecl := ⟨e.name.text, e.values.map (·.text), ⟨0, 0⟩⟩

end EnumForm

inductive MemberForm
  | function (form : FunctionForm)
  | stateVariable (form : VariableForm)
  | enum (form : EnumForm)

namespace MemberForm

def tokens : MemberForm → List String
  | .function form => form.tokens
  | .stateVariable form => form.tokens
  | .enum form => form.tokens

def decl : MemberForm → Member
  | .function form => .function form.decl
  | .stateVariable form => .stateVariable form.decl
  | .enum form => .enum form.decl

end MemberForm

def ContractKind.spelling : ContractKind → String
  | .contract => "contract"
  | .library => "library"
  | .interface => "interface"

structure ContractForm where
  kind : ContractKind
  name : Name
  bases : List DottedName
  members : List MemberForm

namespace ContractForm

def basesTokens (c : ContractForm) : List String :=
  if c.bases.isEmpty then [] else "is" :: separateTokens (c.bases.map fun b => [b.text])

def tokens (c : ContractForm) : List String :=
  c.kind.spelling :: c.name.text :: (c.basesTokens ++ ("\x7b" :: (c.members.flatMap (·.tokens) ++
    ["\x7d"])))

def decl (c : ContractForm) : Contract where
  kind := c.kind
  name := c.name.text
  bases := c.bases.map (·.text)
  body := c.members.map (·.decl)
  span := ⟨0, 0⟩

end ContractForm

/-- What a pragma says. It can hold anything but the semicolon that ends it. -/
structure PragmaForm where
  value : String
  notEmpty : value ≠ ""
  noSemicolon : ';' ∉ value.toList
  startsSolid : ∀ x ∈ value.toList.head?, isSpace x = false ∧ x ≠ '/'

/-- A path that needs no escapes between its quotes. -/
structure ImportForm where
  path : String
  noQuote : '"' ∉ path.toList
  noBackslash : '\\' ∉ path.toList

inductive ItemForm
  | pragma (form : PragmaForm)
  | importing (form : ImportForm)
  | contract (form : ContractForm)

namespace ItemForm

def tokens : ItemForm → List String
  | .pragma form => ["pragma", form.value, ";"]
  | .importing form => ["import", "\"" ++ form.path ++ "\"", ";"]
  | .contract form => form.tokens

def decl : ItemForm → SourceItem
  | .pragma _ => .pragma ⟨0, 0⟩
  | .importing form => .importing ⟨form.path, ⟨0, 0⟩⟩
  | .contract form => .contract form.decl

end ItemForm

/-- The items in order, with single spaces between all tokens. -/
def writeItems (items : List ItemForm) : String :=
  " ".intercalate (items.flatMap (·.tokens))

/-! Declarations without the places where they stand. -/

def Parameter.unplaced (p : Parameter) : Parameter := { p with span := ⟨0, 0⟩ }

def Modifier.unplaced (m : Modifier) : Modifier := { m with span := ⟨0, 0⟩ }

def FunctionDecl.unplaced (f : FunctionDecl) : FunctionDecl :=
  { f with
    params := f.params.map (·.unplaced)
    paramsSpan := ⟨0, 0⟩
    modifiers := f.modifiers.map (·.unplaced)
    span := ⟨0, 0⟩ }

def Member.unplaced : Member → Member
  | .function decl => .function decl.unplaced
  | .stateVariable decl => .stateVariable { decl with span := ⟨0, 0⟩ }
  | .enum decl => .enum { decl with span := ⟨0, 0⟩ }
  | .other _ => .other ⟨0, 0⟩

def Contract.unplaced (c : Contract) : Contract :=
  { c with body := c.body.map (·.unplaced), span := ⟨0, 0⟩ }

def SourceItem.unplaced : SourceItem → SourceItem
  | .pragma _ => .pragma ⟨0, 0⟩
  | .importing decl => .importing { decl with span := ⟨0, 0⟩ }
  | .contract decl => .contract decl.unplaced
  | .other _ => .other ⟨0, 0⟩

def SourceUnit.unplaced (u : SourceUnit) : SourceUnit := ⟨u.items.map (·.unplaced)⟩

end SolidityStubs
