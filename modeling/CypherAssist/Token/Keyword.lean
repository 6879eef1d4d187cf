import CypherAssist.Text.Uppercase

/-! The keywords of Cypher. A word is a keyword whatever its letter case, and the same spelling may
still serve as a name where the grammar asks for one. -/
namespace CypherAssist.Token

/-- A reserved spelling of the language, named by that spelling. -/
inductive Keyword where
  | ALIAS | ALIASES | ALL | ALTER | AND | AS | ASC | ASCENDING | BY | CALL | CASE | COMPOSITE
  | CONTAINS | CREATE | DATABASE | DATABASES | DEFAULT | DELETE | DESC | DESCENDING | DETACH
  | DISTINCT | DROP | ELSE | END | ENDS | EXISTS | FALSE | FOR | FUNCTION | FUNCTIONS | HOME | IF
  | IN | IS | LIMIT | MATCH | MERGE | NOT | NOWAIT | NULL | ON | OPTIONAL | OR | ORDER
  | PROCEDURE | PROCEDURES | PROPERTIES | REMOVE | REPLACE | RETURN | SET | SHOW | SKIP | START
  | STARTS | STOP | TARGET | THEN | TRUE | UNION | UNWIND | USE | WAIT | WHEN | WHERE | WITH
  | XOR | YIELD
  deriving DecidableEq, Repr

namespace Keyword

/-- The keywords in alphabetical order. -/
def all : List Keyword :=
  [.ALIAS, .ALIASES, .ALL, .ALTER, .AND, .AS, .ASC, .ASCENDING, .BY, .CALL, .CASE, .COMPOSITE,
   .CONTAINS, .CREATE, .DATABASE, .DATABASES, .DEFAULT, .DELETE, .DESC, .DESCENDING, .DETACH,
   .DISTINCT, .DROP, .ELSE, .END, .ENDS, .EXISTS, .FALSE, .FOR, .FUNCTION, .FUNCTIONS, .HOME,
   .IF, .IN, .IS, .LIMIT, .MATCH, .MERGE, .NOT, .NOWAIT, .NULL, .ON, .OPTIONAL, .OR, .ORDER,
   .PROCEDURE, .PROCEDURES, .PROPERTIES, .REMOVE, .REPLACE, .RETURN, .SET, .SHOW, .SKIP, .START,
   .STARTS, .STOP, .TARGET, .THEN, .TRUE, .UNION, .UNWIND, .USE, .WAIT, .WHEN, .WHERE, .WITH,
   .XOR, .YIELD]

/-- The canonical spelling is in capitals. -/
def spelling : Keyword → String
  | .ALIAS => "ALIAS"
  | .ALIASES => "ALIASES"
  | .ALL => "ALL"
  | .ALTER => "ALTER"
  | .AND => "AND"
  | .AS => "AS"
  | .ASC => "ASC"
  | .ASCENDING => "ASCENDING"
  | .BY => "BY"
  | .CALL => "CALL"
  | .CASE => "CASE"
  | .COMPOSITE => "COMPOSITE"
  | .CONTAINS => "CONTAINS"
  | .CREATE => "CREATE"
  | .DATABASE => "DATABASE"
  | .DATABASES => "DATABASES"
  | .DEFAULT => "DEFAULT"
  | .DELETE => "DELETE"
  | .DESC => "DESC"
  | .DESCENDING => "DESCENDING"
  | .DETACH => "DETACH"
  | .DISTINCT => "DISTINCT"
  | .DROP => "DROP"
  | .ELSE => "ELSE"
  | .END => "END"
  | .ENDS => "ENDS"
  | .EXISTS => "EXISTS"
  | .FALSE => "FALSE"
  | .FOR => "FOR"
  | .FUNCTION => "FUNCTION"
  | .FUNCTIONS => "FUNCTIONS"
  | .HOME => "HOME"
  | .IF => "IF"
  | .IN => "IN"
  | .IS => "IS"
  | .LIMIT => "LIMIT"
  | .MATCH => "MATCH"
  | .MERGE => "MERGE"
  | .NOT => "NOT"
  | .NOWAIT => "NOWAIT"
  | .NULL => "NULL"
  | .ON => "ON"
  | .OPTIONAL => "OPTIONAL"
  | .OR => "OR"
  | .ORDER => "ORDER"
  | .PROCEDURE => "PROCEDURE"
  | .PROCEDURES => "PROCEDURES"
  | .PROPERTIES => "PROPERTIES"
  | .REMOVE => "REMOVE"
  | .REPLACE => "REPLACE"
  | .RETURN => "RETURN"
  | .SET => "SET"
  | .SHOW => "SHOW"
  | .SKIP => "SKIP"
  | .START => "START"
  | .STARTS => "STARTS"
  | .STOP => "STOP"
  | .TARGET => "TARGET"
  | .THEN => "THEN"
  | .TRUE => "TRUE"
  | .UNION => "UNION"
  | .UNWIND => "UNWIND"
  | .USE => "USE"
  | .WAIT => "WAIT"
  | .WHEN => "WHEN"
  | .WHERE => "WHERE"
  | .WITH => "WITH"
  | .XOR => "XOR"
  | .YIELD => "YIELD"

/-- The keyword that a word spells, letter case aside. -/
def ofWord? (word : List Char) : Option Keyword :=
  all.find? fun keyword => keyword.spelling.toList = Text.upperCase word

/-- The list of keywords misses none. -/
theorem mem_all (keyword : Keyword) : keyword ∈ all := by
  cases keyword <;> decide

end Keyword

end CypherAssist.Token
