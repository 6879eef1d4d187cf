import CypherAssist.Token.Keyword
import CypherAssist.Token.Symbol

/-! Token kinds, their categories and the names under which they are shown. -/
namespace CypherAssist.Token

/-- What a token is. Blanks and comments are kept in the token stream but never parsed; an error
character belongs to no other kind, and the stream closes with an end-of-file token. -/
inductive Kind where
  | keyword (word : Keyword)
  | symbol (sign : Symbol)
  | plainName
  | quotedName
  | singleQuoted
  | doubleQuoted
  | integer
  | decimal
  | blank
  | lineComment
  | blockComment
  | errorChar
  | endOfFile
  deriving DecidableEq, Repr

/-- The coarse class of a token, by which it is coloured and offered. -/
inductive Category where
  | keyword | operator | punctuation | bracket | separator | symbolicName | stringLiteral
  | numberLiteral | comment | whitespace | error | endOfFile
  deriving DecidableEq, Repr

namespace Category

/-- The name of a category. -/
def name : Category → String
  | .keyword => "keyword"
  | .operator => "operator"
  | .punctuation => "punctuation"
  | .bracket => "bracket"
  | .separator => "separator"
  | .symbolicName => "symbolicName"
  | .stringLiteral => "stringLiteral"
  | .numberLiteral => "numberLiteral"
  | .comment => "comment"
  | .whitespace => "whitespace"
  | .error => "error"
  | .endOfFile => "eof"

end Category

namespace Kind

/-- Every kind once: the keywords, the names and literals, the symbols, and the rest. -/
def all : List Kind :=
  Keyword.all.map .keyword ++
    [.plainName, .quotedName, .singleQuoted, .doubleQuoted, .integer, .decimal] ++
    Symbol.all.map .symbol ++
    [.blank, .lineComment, .blockComment, .errorChar, .endOfFile]

/-- The name of a kind; for a keyword it is the spelling. -/
def name : Kind → String
  | .keyword word => word.spelling
  | .symbol sign => sign.name
  | .plainName => "UNESCAPED_SYMBOLIC_NAME"
  | .quotedName => "ESCAPED_SYMBOLIC_NAME"
  | .singleQuoted => "STRING_LITERAL1"
  | .doubleQuoted => "STRING_LITERAL2"
  | .integer => "UNSIGNED_DECIMAL_INTEGER"
  | .decimal => "DECIMAL_DOUBLE"
  | .blank => "SPACE"
  | .lineComment => "SINGLE_LINE_COMMENT"
  | .blockComment => "MULTI_LINE_COMMENT"
  | .errorChar => "ERROR_CHAR"
  | .endOfFile => "EOF"

/-- The category of a kind; a symbol that is no bracket, separator or punctuation mark is an
operator. -/
def category : Kind → Category
  | .keyword _ => .keyword
  | .symbol .dotDot | .symbol .dot | .symbol .colon => .punctuation
  | .symbol .comma | .symbol .semicolon => .separator
  | .symbol .leftParen | .symbol .rightParen | .symbol .leftBracket | .symbol .rightBracket
  | .symbol .leftBrace | .symbol .rightBrace => .bracket
  | .symbol _ => .operator
  | .plainName | .quotedName => .symbolicName
  | .singleQuoted | .doubleQuoted => .stringLiteral
  | .integer | .decimal => .numberLiteral
  | .blank => .whitespace
  | .lineComment | .blockComment => .comment
  | .errorChar => .error
  | .endOfFile => .endOfFile

/-- Blanks and comments are hidden from the grammar. -/
def isHidden : Kind → Bool
  | .blank | .lineComment | .blockComment => true
  | _ => false

/-- Keywords and symbols are shown by their spelling; the other kinds have no fixed text. -/
def display? : Kind → Option String
  | .keyword word => some word.spelling
  | .symbol sign => some sign.spelling
  | _ => none

/-- The word by which a message asks for a token of this kind. -/
def description (kind : Kind) : String :=
  kind.display?.getD kind.name.toLower

/-- The list of kinds misses none. -/
theorem mem_all (kind : Kind) : kind ∈ all := by
  cases kind <;> simp [all, Keyword.mem_all, Symbol.mem_all]

end Kind

end CypherAssist.Token
