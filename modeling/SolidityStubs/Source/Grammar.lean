import SolidityStubs.Peg.Run
import SolidityStubs.Source.Rule
import SolidityStubs.Source.Trivia

/-! # The declaration grammar

The grammar reads what a contract declares. Bodies, initial values and arguments are passed over as
balanced groups.
-/
namespace SolidityStubs.Source

open Peg (Expr Production Grammar)

def isIdentifierStart (c : Char) : Bool :=
  c.isAlpha || c == '_' || c == '$'

def isIdentifierChar (c : Char) : Bool :=
  c.isAlphanum || c == '_' || c == '$'

def isBracket (c : Char) : Bool :=
  c == '(' || c == ')' || c == '[' || c == ']' || c == '\x7b' || c == '\x7d'

/-- Takes nothing. As the first part of a rule it lets padding come before the next part. -/
def startOfInput : Expr Rule := .text []

/-- No identifier goes on here. -/
def wordEnd : Expr Rule := .never (.char isIdentifierChar)

/-- One of the words, the first that fits, and no more of an identifier after it. -/
def oneOfWords (words : List String) : Expr Rule :=
  .seq (.any (words.map .literal)) wordEnd

def spaces : Expr Rule := .seq (.char isSpace) (.many (.char isSpace))

def word (k : Keyword) : Expr Rule := .rule (.keyword k)

def quoted (quote : Char) : Expr Rule :=
  .all [
    .text [quote],
    .many (.choice
      (.seq (.text ['\\']) .anyChar)
      (.char fun c => c != quote && c != '\\')),
    .text [quote]]

def group (opening closing : Char) : Expr Rule :=
  .all [.text [opening], .many (.rule .filler), .text [closing]]

def parenGroup : Expr Rule := group '(' ')'

def bracketGroup : Expr Rule := group '[' ']'

def braceGroup : Expr Rule := group '\x7b' '\x7d'

def untilSemicolon : Expr Rule :=
  .many (.seq (.never (.text [';'])) (.rule .filler))

def sourceItem : Expr Rule :=
  .any [
    .rule .pragmaDirective,
    .rule .importDirective,
    .rule .contractDefinition,
    .rule .structDefinition,
    .rule .enumDefinition,
    .rule .errorDefinition,
    .rule .usingDirective]

def contractPart : Expr Rule :=
  .any [
    .rule .usingDirective,
    .rule .structDefinition,
    .rule .enumDefinition,
    .rule .eventDefinition,
    .rule .errorDefinition,
    .rule .modifierDefinition,
    .rule .functionDefinition,
    .rule .stateVariableDeclaration]

def modifierItem : Expr Rule :=
  .choice (.rule .returnsClause) (.rule .modifierInvocation)

def baseType : Expr Rule :=
  .any [.rule .mappingType, .rule .addressPayable, .rule .userTypeName]

def bodyOrSemicolon : Expr Rule :=
  .choice (.rule .functionBody) (.text [';'])

def aliasClause : Expr Rule :=
  .maybe (.seq (word .asWord) (.rule .identifier))

def importClause : Expr Rule :=
  .any [
    .all [.rule .importSymbols, word .fromWord, .rule .importPath],
    .all [.text ['*'], word .asWord, .rule .identifier, word .fromWord, .rule .importPath],
    .seq (.rule .importPath) aliasClause]

def storageWords : List String := ["memory", "storage", "calldata", "indexed"]

def attributeWords : List String :=
  ["public", "private", "internal", "constant", "immutable", "override", "transient"]

def production : Rule → Production Rule
  | .endOfInput => ⟨.structured, .never .anyChar⟩
  | .identifier => ⟨.atomic, .seq (.char isIdentifierStart) (.many (.char isIdentifierChar))⟩
  | .userTypeName => ⟨.atomic, .separated (.rule .identifier) (.text ['.'])⟩
  | .stringLiteral => ⟨.atomic, .choice (quoted '"') (quoted '\x27')⟩
  | .keyword k => ⟨.atomic, .seq (.literal k.spelling) wordEnd⟩
  | .filler => ⟨.silent,
      .any [
        parenGroup,
        bracketGroup,
        braceGroup,
        .rule .stringLiteral,
        .char (! isBracket ·)]⟩
  | .sourceUnit => ⟨.structured,
      .all [startOfInput, .many sourceItem, .rule .endOfInput]⟩
  | .pragmaDirective => ⟨.structured,
      .all [word .pragmaWord, .rule .pragmaValue, .text [';']]⟩
  | .pragmaValue => ⟨.atomic, .seq (.char (· != ';')) (.many (.char (· != ';')))⟩
  | .importDirective => ⟨.structured, .all [word .importWord, importClause, .text [';']]⟩
  | .importSymbols => ⟨.structured,
      .all [.text ['\x7b'], .separated (.rule .importSymbol) (.text [',']), .text ['\x7d']]⟩
  | .importSymbol => ⟨.structured, .seq (.rule .identifier) aliasClause⟩
  | .importPath => ⟨.structured, .rule .stringLiteral⟩
  | .contractDefinition => ⟨.structured,
      .all [
        .rule .contractKind,
        .rule .identifier,
        .maybe (.rule .inheritanceList),
        .text ['\x7b'],
        .many contractPart,
        .text ['\x7d']]⟩
  | .contractKind => ⟨.atomic,
      .seq
        (.any [
          .all [.literal "abstract", spaces, .literal "contract"],
          .literal "contract",
          .literal "library",
          .literal "interface"])
        wordEnd⟩
  | .inheritanceList => ⟨.structured,
      .seq (word .isWord) (.separated (.rule .inheritanceSpecifier) (.text [',']))⟩
  | .inheritanceSpecifier => ⟨.structured,
      .seq (.rule .userTypeName) (.maybe (.rule .callArguments))⟩
  | .callArguments => ⟨.structured, parenGroup⟩
  | .usingDirective => ⟨.structured, .all [word .usingWord, untilSemicolon, .text [';']]⟩
  | .structDefinition => ⟨.structured, .all [word .structWord, .rule .identifier, braceGroup]⟩
  | .enumDefinition => ⟨.structured,
      .all [
        word .enumWord,
        .rule .identifier,
        .text ['\x7b'],
        .maybe (.seq (.separated (.rule .identifier) (.text [','])) (.maybe (.text [',']))),
        .text ['\x7d']]⟩
  | .eventDefinition => ⟨.structured,
      .all [
        word .eventWord,
        .rule .identifier,
        parenGroup,
        .maybe (word .anonymousWord),
        .text [';']]⟩
  | .errorDefinition => ⟨.structured,
      .all [word .errorWord, .rule .identifier, parenGroup, .text [';']]⟩
  | .modifierDefinition => ⟨.structured,
      .all [
        word .modifierWord,
        .rule .identifier,
        .maybe (.rule .parameterList),
        .many modifierItem,
        bodyOrSemicolon]⟩
  | .functionDefinition => ⟨.structured,
      .all [.rule .functionHead, .rule .parameterList, .many modifierItem, bodyOrSemicolon]⟩
  | .functionHead => ⟨.structured,
      .any [
        .seq (word .functionWord) (.maybe (.rule .identifier)),
        word .constructorWord,
        word .fallbackWord,
        word .receiveWord]⟩
  | .functionBody => ⟨.structured, braceGroup⟩
  | .returnsClause => ⟨.structured, .seq (word .returnsWord) (.rule .parameterList)⟩
  | .modifierInvocation => ⟨.structured,
      .seq (.rule .userTypeName) (.maybe (.rule .callArguments))⟩
  | .parameterList => ⟨.structured,
      .all [
        .text ['('],
        .maybe (.separated (.rule .parameter) (.text [','])),
        .text [')']]⟩
  | .parameter => ⟨.structured,
      .all [.rule .typeName, .many (.rule .storageLocation), .maybe (.rule .identifier)]⟩
  | .storageLocation => ⟨.atomic, oneOfWords storageWords⟩
  | .typeName => ⟨.structured, .seq baseType (.many (.rule .arraySuffix))⟩
  | .addressPayable => ⟨.atomic,
      .all [.literal "address", spaces, .literal "payable", wordEnd]⟩
  | .mappingType => ⟨.structured,
      .all [
        word .mappingWord,
        .text ['('],
        .rule .typeName,
        .maybe (.rule .identifier),
        .text ['=', '>'],
        .rule .typeName,
        .maybe (.rule .identifier),
        .text [')']]⟩
  | .arraySuffix => ⟨.structured, bracketGroup⟩
  | .stateVariableDeclaration => ⟨.structured,
      .all [
        .rule .typeName,
        .many (.rule .stateVariableAttribute),
        .rule .identifier,
        .maybe (.seq (.text ['=']) untilSemicolon),
        .text [';']]⟩
  | .stateVariableAttribute => ⟨.atomic, oneOfWords attributeWords⟩

def grammar : Grammar Rule := ⟨skip, production⟩

end SolidityStubs.Source
