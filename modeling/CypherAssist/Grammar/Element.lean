import CypherAssist.Grammar.Rule
import CypherAssist.Token.Kind

/-! Grammar elements. A grammar is plain data, a right-hand side for each of its rules; parser and
candidate collector both interpret it. The empty sequence matches the empty text and the empty
choice nothing. -/
namespace CypherAssist

namespace Grammar
open Token

/-- A right-hand side of a grammar rule. -/
inductive Element where
  | token (kind : Kind)
  | reference (target : Rule)
  | sequence (items : List Element)
  | choice (options : List Element)
  | optional (item : Element)
  | repeated (item : Element)
  deriving Repr, Inhabited

instance : Coe Kind Element := ⟨.token⟩

instance : Coe Keyword Element := ⟨fun word => .token (.keyword word)⟩

instance : Coe Symbol Element := ⟨fun sign => .token (.symbol sign)⟩

instance : Coe Rule Element := ⟨.reference⟩

namespace Element

/-- The parts one after the other; a single part stands for itself. -/
def seq : List Element → Element
  | [part] => part
  | parts => .sequence parts

/-- One of the options; among derivations with one end the first option wins. -/
def alt (options : List Element) : Element := .choice options

/-- The parts together, or nothing. -/
def opt (parts : List Element) : Element := .optional (seq parts)

/-- Zero or more repetitions of the parts together. -/
def many (parts : List Element) : Element := .repeated (seq parts)

/-- One or more repetitions of the parts together. -/
def many1 (parts : List Element) : Element := .sequence [seq parts, .repeated (seq parts)]

/-- One or more parts with commas between them. -/
def commaList (part : Element) : Element := .sequence [part, many [Symbol.comma, part]]

mutual

/-- The rules an element refers to, from left to right and as often as it does. -/
def references : Element → List Rule
  | .token _ => []
  | .reference target => [target]
  | .sequence items => referencesOfAll items
  | .choice options => referencesOfAll options
  | .optional item => item.references
  | .repeated item => item.references

/-- The references of several elements in turn. -/
def referencesOfAll : List Element → List Rule
  | [] => []
  | item :: rest => item.references ++ referencesOfAll rest

end

end Element

end Grammar

/-- A grammar gives an element to each rule that it defines. -/
abbrev Grammar := Grammar.Rule → Option Grammar.Element

end CypherAssist
