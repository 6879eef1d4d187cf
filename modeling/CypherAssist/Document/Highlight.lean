import CypherAssist.Document.Parse

/-! Colouring of documents. Names are coloured by the innermost rule around them that has a colour,
other tokens by their category. A token that spans several lines is coloured line by line. -/
namespace CypherAssist
open Token Grammar

/-- A piece of one line and its colour. Lines and columns are counted from zero. -/
structure Highlight where
  line : Nat
  start : Nat
  length : Nat
  colour : String
  deriving DecidableEq, Repr

namespace Highlight

/-- The colours in the order in which clients number them. -/
def legend : List String :=
  ["comment", "string", "keyword", "number", "regexp", "operator", "namespace", "type", "struct",
    "class", "interface", "enum", "typeParameter", "function", "method", "decorator", "macro",
    "variable", "parameter", "property", "label"]

/-- The colour of the names inside a rule. -/
def ruleColour? : Rule → Option String
  | .symbolicLabelNameString => some "typeParameter"
  | .propertyKeyName => some "property"
  | .variableName => some "variable"
  | .parameter => some "parameter"
  | .procedureName => some "function"
  | .functionName => some "function"
  | .symbolicAliasName => some "namespace"
  | .stringLiteral => some "string"
  | .numberLiteral => some "number"
  | _ => none

/-- The colour of a category of tokens. -/
def categoryColour? : Category → Option String
  | .keyword => some "keyword"
  | .operator => some "operator"
  | .stringLiteral => some "string"
  | .numberLiteral => some "number"
  | .comment => some "comment"
  | _ => none

/-- Whether a rule colours tokens of a category. Marks inside a name keep their own colour. -/
def takesRuleColour : Category → Bool
  | .keyword => true
  | .symbolicName => true
  | .stringLiteral => true
  | .numberLiteral => true
  | _ => false

/-- The lines of a lexeme. -/
def splitLines : List Char → List (List Char)
  | [] => [[]]
  | c :: rest =>
    if c = '\n' then [] :: splitLines rest
    else
      match splitLines rest with
      | [] => [[c]]
      | line :: others => (c :: line) :: others

/-- One piece for each line that is not empty. Lines after the first start at column zero. -/
def piecesFrom (colour : String) : Nat → Nat → List (List Char) → List Highlight
  | _, _, [] => []
  | line, column, text :: rest =>
    (if text.isEmpty then [] else [⟨line, column, text.length, colour⟩]) ++
      piecesFrom colour (line + 1) 0 rest

/-- The pieces of a token. -/
def pieces (token : Token) (colour : String) : List Highlight :=
  piecesFrom colour (token.line - 1) token.column (splitLines token.lexeme)

/-- The colour of a token in the tree, given the colour of the rules around it. -/
def colour? (inherited? : Option String) (token : Token) : Option String :=
  if token.isEnd then none
  else
    match inherited? with
    | some colour =>
      if takesRuleColour token.category then some colour else categoryColour? token.category
    | none => categoryColour? token.category

/-- The pieces of a token in the tree. -/
def ofLeaf (inherited? : Option String) (token : Token) : List Highlight :=
  ((colour? inherited? token).map (pieces token)).getD []

mutual

/-- The pieces of a tree, given the colour of the rules around it. -/
def ofTree (inherited? : Option String) : Tree → List Highlight
  | .leaf token => ofLeaf inherited? token
  | .misfit token => ofLeaf inherited? token
  | .node rule _ children => ofTrees (ruleColour? rule <|> inherited?) children

/-- The pieces of several trees in turn. -/
def ofTrees (inherited? : Option String) : List Tree → List Highlight
  | [] => []
  | child :: rest => ofTree inherited? child ++ ofTrees inherited? rest

end

/-- The order of pieces in a document. -/
def before (first second : Highlight) : Bool :=
  first.line < second.line || (first.line = second.line && first.start ≤ second.start)

/-- The coloured pieces of a document by position. Comments are not in the tree and are taken from
the token stream. -/
def ofDocument (document : Document) : List Highlight :=
  let comments := document.stream.toList.filter fun token => token.category = .comment
  (ofTree none document.tree ++ comments.flatMap fun token => pieces token "comment").mergeSort
    before

/-- The number of a colour; zero for one that is not in the legend. -/
def colourIndex (colour : String) : Nat := (legend.findIdx? (· = colour)).getD 0

/-- Encodes pieces by the distance of each from the one before: lines, then columns from its start
on the same line or from the margin, then length, colour and no modifiers. -/
def encodeFrom : Nat → Nat → List Highlight → List Int
  | _, _, [] => []
  | line, start, piece :: rest =>
    let lines : Int := (piece.line : Int) - line
    let columns : Int := if lines = 0 then (piece.start : Int) - start else piece.start
    lines :: columns :: (piece.length : Int) :: (colourIndex piece.colour : Int) :: 0 ::
      encodeFrom piece.line piece.start rest

/-- The numbers sent to a client for a list of pieces. -/
def encode (highlights : List Highlight) : List Int := encodeFrom 0 0 highlights

/-- The numbers sent for a text. -/
def tokensOf (limits : Limits) (text : String) : List Int :=
  encode (ofDocument (Document.parse limits text))

end Highlight

end CypherAssist
