import CypherAssist.Token.Stream

/-! Problems found while reading and parsing a text, and the wording of each. -/
namespace CypherAssist
open Token

/-- What is wrong at a token. -/
inductive Problem where
  | unterminated (what : Unterminated)
  | tooDeep
  | unexpectedEnd (expected : List Kind)
  | unexpected (text : String) (expected : List Kind)
  deriving DecidableEq, Repr

namespace Problem

/-- The most kinds of token that a message lists. -/
def listed : Nat := 8

/-- The kinds that would have fitted, in alphabetical order; a long list is cut. -/
def describe (expected : List Kind) : String :=
  let names := (expected.map Kind.description).mergeSort fun a b => !(b < a)
  let shown := if listed < names.length then names.take listed ++ ["..."] else names
  ", ".intercalate shown

/-- The wording of a problem. -/
def message : Problem → String
  | .unterminated .blockComment => "Unterminated block comment"
  | .unterminated .stringLiteral => "Unterminated string literal"
  | .unterminated .quotedName => "Unterminated escaped name"
  | .tooDeep => "Statement is too deeply nested to parse"
  | .unexpectedEnd expected => "Unexpected end of input, expected " ++ describe expected
  | .unexpected text expected => "Unexpected '" ++ text ++ "', expected " ++ describe expected

end Problem

/-- A problem and the token it is found at. -/
structure Issue where
  problem : Problem
  token : Token
  deriving DecidableEq, Repr

/-- The wording of the problem. -/
def Issue.message (issue : Issue) : String := issue.problem.message

end CypherAssist
