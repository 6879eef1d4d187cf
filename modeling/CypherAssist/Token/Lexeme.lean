import CypherAssist.Text.Blank
import CypherAssist.Text.Word
import CypherAssist.Token.Kind

/-! The lexeme at the start of a text. One reader for each language of tokens gives the length of
the longest beginning of the text that is a word of the language; `next` asks the readers in turn.
No two of them accept the same text except for decimals and integers, a comment and the sign it
starts with, and a symbol and its first character, where the longer lexeme is asked for first. -/
namespace CypherAssist.Token

/-- A construct that the text opens and never closes. -/
inductive Unterminated where
  | blockComment
  | stringLiteral
  | quotedName
  deriving DecidableEq, Repr

/-- What a text starts with. -/
inductive Lexeme where
  | token (kind : Kind) (length : Nat)
  | unterminated (what : Unterminated)
  deriving DecidableEq, Repr

namespace Lexeme

/-- The length of the longest run of characters of one class. -/
def run (accepts : Char → Bool) (text : List Char) : Nat :=
  (text.takeWhile accepts).length

/-- The longest run, unless it is empty. -/
def run? (accepts : Char → Bool) (text : List Char) : Option Nat :=
  match run accepts text with
  | 0 => none
  | length => some length

/-- A run of blanks. -/
def blank? (text : List Char) : Option Nat :=
  run? Text.isBlank text

/-- Two slashes and the rest of the line. -/
def lineComment? : List Char → Option Nat
  | '/' :: '/' :: rest => some (2 + run (fun c => c != '\r' && c != '\n') rest)
  | _ => none

/-- The distance behind the first star that a slash follows. -/
def commentEnd? : List Char → Option Nat
  | [] => none
  | '*' :: '/' :: _ => some 2
  | _ :: rest => (commentEnd? rest).map (· + 1)

/-- A comment that ends at the first closing mark. -/
def blockComment? : List Char → Option Nat
  | '/' :: '*' :: rest => (commentEnd? rest).map (· + 2)
  | _ => none

/-- The length of an optional sign. -/
def sign : List Char → Nat
  | '+' :: _ => 1
  | '-' :: _ => 1
  | _ => 0

/-- The letter e, an optional sign and at least one digit. -/
def exponent? : List Char → Option Nat
  | [] => none
  | c :: rest =>
    if c = 'e' ∨ c = 'E' then
      (run? Text.isDecimalDigit (rest.drop (sign rest))).map (1 + sign rest + ·)
    else none

/-- Digits with a fraction and perhaps an exponent, or with an exponent alone. -/
def decimal? (text : List Char) : Option Nat := do
  let whole ← run? Text.isDecimalDigit text
  match text.drop whole with
  | '.' :: rest =>
    let fraction ← run? Text.isDecimalDigit rest
    return whole + 1 + fraction + (exponent? (rest.drop fraction)).getD 0
  | rest => return whole + (← exponent? rest)

/-- A run of digits. -/
def integer? (text : List Char) : Option Nat :=
  run? Text.isDecimalDigit text

/-- The distance behind the first closing quote. A backslash protects the character after it,
whatever that is. -/
def stringEnd? (quote : Char) : List Char → Option Nat
  | [] => none
  | '\\' :: _ :: rest => (stringEnd? quote rest).map (· + 2)
  | c :: rest =>
    if c = quote then some 1
    else if c = '\\' then none
    else (stringEnd? quote rest).map (· + 1)

/-- A string between two marks of one kind. -/
def string? (quote : Char) : List Char → Option Nat
  | [] => none
  | c :: rest => if c = quote then (stringEnd? quote rest).map (· + 1) else none

/-- The distance behind the closing backtick. Two backticks stand for one inside the name, except
that the first of the last two closes a name which nothing after them closes. -/
def nameEnd? : List Char → Option Nat
  | [] => none
  | '`' :: '`' :: rest =>
    match nameEnd? rest with
    | some distance => some (distance + 2)
    | none => some 1
  | '`' :: _ => some 1
  | _ :: rest => (nameEnd? rest).map (· + 1)

/-- A name between backticks. -/
def quotedName? : List Char → Option Nat
  | '`' :: rest => (nameEnd? rest).map (· + 1)
  | _ => none

/-- A name or keyword. -/
def word? : List Char → Option Nat
  | [] => none
  | c :: rest => if Text.isNameStart c then some (1 + run Text.isWordChar rest) else none

/-- The kind of a word: a keyword where it spells one, else a name. -/
def wordKind (word : List Char) : Kind :=
  match Keyword.ofWord? word with
  | some keyword => .keyword keyword
  | none => .plainName

/-- The longest symbol at the start. -/
def symbol? (text : List Char) : Option Symbol :=
  Symbol.all.find? fun symbol => symbol.spelling.toList.isPrefixOf text

/-- The construct that an opening mark starts. -/
def opened? : List Char → Option Unterminated
  | '/' :: '*' :: _ => some .blockComment
  | '\'' :: _ => some .stringLiteral
  | '"' :: _ => some .stringLiteral
  | '`' :: _ => some .quotedName
  | _ => none

/-- The lexeme of a token that is neither a symbol nor an error. -/
def complete? (text : List Char) : Option (Kind × Nat) :=
  (blank? text).map (Kind.blank, ·) <|>
  (lineComment? text).map (Kind.lineComment, ·) <|>
  (blockComment? text).map (Kind.blockComment, ·) <|>
  (decimal? text).map (Kind.decimal, ·) <|>
  (integer? text).map (Kind.integer, ·) <|>
  (string? '\'' text).map (Kind.singleQuoted, ·) <|>
  (string? '"' text).map (Kind.doubleQuoted, ·) <|>
  (quotedName? text).map (Kind.quotedName, ·) <|>
  (word? text).map fun length => (wordKind (text.take length), length)

/-- The lexeme at the start of a text. An opening mark that nothing closes comes before the symbol
with which it starts, and a character that starts nothing stands alone as an error. -/
def next (text : List Char) : Lexeme :=
  match complete? text with
  | some (kind, length) => .token kind length
  | none =>
    match opened? text with
    | some what => .unterminated what
    | none =>
      match symbol? text with
      | some symbol => .token (.symbol symbol) symbol.spelling.toList.length
      | none => .token .errorChar 1

end Lexeme

end CypherAssist.Token
