/-! Upper-case spelling of a word, as far as it can be written in ASCII. Keywords are ASCII, so a
word with any other capital is no keyword, and its capital may be left as it is. -/
namespace CypherAssist.Text

/-- The capitals of one character: an ASCII letter has one, and so have the dotless i and the
long s; the sharp s and the seven Latin ligatures have several. Any other character is kept. -/
def capitals (c : Char) : List Char :=
  match c with
  | 'ß' => ['S', 'S']
  | 'ı' => ['I']
  | 'ſ' => ['S']
  | 'ﬀ' => ['F', 'F']
  | 'ﬁ' => ['F', 'I']
  | 'ﬂ' => ['F', 'L']
  | 'ﬃ' => ['F', 'F', 'I']
  | 'ﬄ' => ['F', 'F', 'L']
  | 'ﬅ' => ['S', 'T']
  | 'ﬆ' => ['S', 'T']
  | _ => [c.toUpper]

/-- A word in capitals. -/
def upperCase (word : List Char) : List Char :=
  word.flatMap capitals

end CypherAssist.Text
