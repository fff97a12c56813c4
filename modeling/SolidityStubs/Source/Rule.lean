/-! # Rules of the declaration grammar

The rules of Solidity's declaration surface, in the order in which a syntax error lists them, with
the names it gives them.
-/
namespace SolidityStubs.Source

inductive Keyword
  | pragmaWord
  | importWord
  | fromWord
  | asWord
  | isWord
  | usingWord
  | structWord
  | enumWord
  | eventWord
  | errorWord
  | anonymousWord
  | modifierWord
  | functionWord
  | constructorWord
  | fallbackWord
  | receiveWord
  | returnsWord
  | mappingWord
deriving DecidableEq, Repr

namespace Keyword

def all : List Keyword :=
  [.pragmaWord, .importWord, .fromWord, .asWord, .isWord, .usingWord, .structWord, .enumWord,
    .eventWord, .errorWord, .anonymousWord, .modifierWord, .functionWord, .constructorWord,
    .fallbackWord, .receiveWord, .returnsWord, .mappingWord]

def spelling : Keyword → String
  | .pragmaWord => "pragma"
  | .importWord => "import"
  | .fromWord => "from"
  | .asWord => "as"
  | .isWord => "is"
  | .usingWord => "using"
  | .structWord => "struct"
  | .enumWord => "enum"
  | .eventWord => "event"
  | .errorWord => "error"
  | .anonymousWord => "anonymous"
  | .modifierWord => "modifier"
  | .functionWord => "function"
  | .constructorWord => "constructor"
  | .fallbackWord => "fallback"
  | .receiveWord => "receive"
  | .returnsWord => "returns"
  | .mappingWord => "mapping"

end Keyword

/-- A `filler` is one piece of text whose meaning does not matter: a balanced group, a string or a
single character. -/
inductive Rule
  | endOfInput
  | identifier
  | userTypeName
  | stringLiteral
  | keyword (word : Keyword)
  | filler
  | sourceUnit
  | pragmaDirective
  | pragmaValue
  | importDirective
  | importSymbols
  | importSymbol
  | importPath
  | contractDefinition
  | contractKind
  | inheritanceList
  | inheritanceSpecifier
  | callArguments
  | usingDirective
  | structDefinition
  | enumDefinition
  | eventDefinition
  | errorDefinition
  | modifierDefinition
  | functionDefinition
  | functionHead
  | functionBody
  | returnsClause
  | modifierInvocation
  | parameterList
  | parameter
  | storageLocation
  | typeName
  | addressPayable
  | mappingType
  | arraySuffix
  | stateVariableDeclaration
  | stateVariableAttribute
deriving DecidableEq, Repr

namespace Rule

def all : List Rule :=
  [.endOfInput, .identifier, .userTypeName, .stringLiteral] ++ Keyword.all.map .keyword ++
    [.filler, .sourceUnit, .pragmaDirective, .pragmaValue, .importDirective, .importSymbols,
      .importSymbol, .importPath, .contractDefinition, .contractKind, .inheritanceList,
      .inheritanceSpecifier, .callArguments, .usingDirective, .structDefinition, .enumDefinition,
      .eventDefinition, .errorDefinition, .modifierDefinition, .functionDefinition, .functionHead,
      .functionBody, .returnsClause, .modifierInvocation, .parameterList, .parameter,
      .storageLocation, .typeName, .addressPayable, .mappingType, .arraySuffix,
      .stateVariableDeclaration, .stateVariableAttribute]

def name : Rule → String
  | .endOfInput => "EOI"
  | .identifier => "identifier"
  | .userTypeName => "user_type_name"
  | .stringLiteral => "string_literal"
  | .keyword word => "kw_" ++ word.spelling
  | .filler => "filler"
  | .sourceUnit => "source_unit"
  | .pragmaDirective => "pragma_directive"
  | .pragmaValue => "pragma_value"
  | .importDirective => "import_directive"
  | .importSymbols => "import_symbols"
  | .importSymbol => "import_symbol"
  | .importPath => "import_path"
  | .contractDefinition => "contract_definition"
  | .contractKind => "contract_kind"
  | .inheritanceList => "inheritance_list"
  | .inheritanceSpecifier => "inheritance_specifier"
  | .callArguments => "call_arguments"
  | .usingDirective => "using_directive"
  | .structDefinition => "struct_definition"
  | .enumDefinition => "enum_definition"
  | .eventDefinition => "event_definition"
  | .errorDefinition => "error_definition"
  | .modifierDefinition => "modifier_definition"
  | .functionDefinition => "function_definition"
  | .functionHead => "function_head"
  | .functionBody => "function_body"
  | .returnsClause => "returns_clause"
  | .modifierInvocation => "modifier_invocation"
  | .parameterList => "parameter_list"
  | .parameter => "parameter"
  | .storageLocation => "storage_location"
  | .typeName => "type_name"
  | .addressPayable => "address_payable"
  | .mappingType => "mapping_type"
  | .arraySuffix => "array_suffix"
  | .stateVariableDeclaration => "state_variable_declaration"
  | .stateVariableAttribute => "state_variable_attribute"

theorem mem_all (r : Rule) : r ∈ all := by
  cases r with
  | keyword word => cases word <;> decide
  | _ => decide

theorem nodup_all : all.Nodup := by
  decide

end Rule

end SolidityStubs.Source
