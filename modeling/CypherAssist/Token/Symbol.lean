/-! The operators, brackets and punctuation marks of Cypher. -/
namespace CypherAssist.Token

/-- A token that is always spelled the same way and is no word. -/
inductive Symbol where
  | dotDot | regexEq | notEq | lessEq | greaterEq | plusEq | plus | minus | times | divide
  | percent | power | equals | less | greater | bar | ampersand | exclamation | dollar | dot
  | colon | comma | semicolon | leftParen | rightParen | leftBracket | rightBracket | leftBrace
  | rightBrace
  deriving DecidableEq, Repr

namespace Symbol

/-- The symbols, those of two characters first: where both fit, the longer one is read. -/
def all : List Symbol :=
  [.dotDot, .regexEq, .notEq, .lessEq, .greaterEq, .plusEq, .plus, .minus, .times, .divide,
   .percent, .power, .equals, .less, .greater, .bar, .ampersand, .exclamation, .dollar, .dot,
   .colon, .comma, .semicolon, .leftParen, .rightParen, .leftBracket, .rightBracket, .leftBrace,
   .rightBrace]

/-- The characters of a symbol. -/
def spelling : Symbol → String
  | .dotDot => ".."
  | .regexEq => "=~"
  | .notEq => "<>"
  | .lessEq => "<="
  | .greaterEq => ">="
  | .plusEq => "+="
  | .plus => "+"
  | .minus => "-"
  | .times => "*"
  | .divide => "/"
  | .percent => "%"
  | .power => "^"
  | .equals => "="
  | .less => "<"
  | .greater => ">"
  | .bar => "|"
  | .ampersand => "&"
  | .exclamation => "!"
  | .dollar => "$"
  | .dot => "."
  | .colon => ":"
  | .comma => ","
  | .semicolon => ";"
  | .leftParen => "("
  | .rightParen => ")"
  | .leftBracket => "["
  | .rightBracket => "]"
  | .leftBrace => "\x7b"
  | .rightBrace => "\x7d"

/-- The name of the token kind. -/
def name : Symbol → String
  | .dotDot => "DOTDOT"
  | .regexEq => "REGEQ"
  | .notEq => "NEQ"
  | .lessEq => "LE"
  | .greaterEq => "GE"
  | .plusEq => "PLUSEQUAL"
  | .plus => "PLUS"
  | .minus => "MINUS"
  | .times => "TIMES"
  | .divide => "DIVIDE"
  | .percent => "PERCENT"
  | .power => "POW"
  | .equals => "EQ"
  | .less => "LT"
  | .greater => "GT"
  | .bar => "BAR"
  | .ampersand => "AMPERSAND"
  | .exclamation => "EXCLAMATION_MARK"
  | .dollar => "DOLLAR"
  | .dot => "DOT"
  | .colon => "COLON"
  | .comma => "COMMA"
  | .semicolon => "SEMICOLON"
  | .leftParen => "LPAREN"
  | .rightParen => "RPAREN"
  | .leftBracket => "LBRACKET"
  | .rightBracket => "RBRACKET"
  | .leftBrace => "LCURLY"
  | .rightBrace => "RCURLY"

/-- The list of symbols misses none. -/
theorem mem_all (symbol : Symbol) : symbol ∈ all := by
  cases symbol <;> decide

/-- No symbol is empty. -/
theorem spelling_ne_nil (symbol : Symbol) : symbol.spelling.toList ≠ [] := by
  cases symbol <;> decide

end Symbol

end CypherAssist.Token
