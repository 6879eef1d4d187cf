import CypherAssist.Completion.Item
import CypherAssist.Text.Caret
import CypherAssist.Text.Line
import CypherAssist.Text.Word

/-! Words of the document as completions. They are offered where the grammar has no opinion; the
word being typed is no suggestion for itself. -/
namespace CypherAssist.Completion
open Text

/-- The names in a text from left to right. Digits ahead of a name are no part of it. -/
def wordsIn (text : List Char) : List (List Char) :=
  match text with
  | [] => []
  | c :: rest =>
    if isNameStart c then
      (c :: rest.takeWhile isWordChar) :: wordsIn (rest.dropWhile isWordChar)
    else wordsIn rest
termination_by text.length
decreasing_by
  · have := (List.dropWhile_sublist isWordChar (l := rest)).length_le
    simp only [List.length_cons]
    omega
  · simp

/-- The run of word characters that ends a text, where one newline behind it is passed over. -/
def lastRun (text : List Char) : List Char :=
  let backward := text.reverse
  let backward := if backward.head? = some '\n' then backward.drop 1 else backward
  (backward.takeWhile isWordChar).reverse

/-- The word that ends at a position of a text. -/
def typedWord (text : List Char) (position : Position) : List Char :=
  match (lines text)[position.line]? with
  | some line => lastRun (line.take position.character)
  | none => []

/-- The words of a text once each, in the order of their first occurrence, except the one being
typed. -/
def documentWords (text : String) (position : Position) : List Item :=
  let typed := typedWord text.toList position
  let words := (wordsIn text.toList).eraseDups.filter fun word => word != typed
  items (words.map WideText.ofChars) .text

end CypherAssist.Completion
