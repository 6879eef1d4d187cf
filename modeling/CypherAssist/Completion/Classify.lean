import CypherAssist.Completion.Item
import CypherAssist.Grammar.Candidate
import CypherAssist.Schema.Catalog

/-! Meaning of name candidates. The grammar uses the same rules for the names of labels,
relationship types, procedures and variables; the rules around a candidate tell them apart. -/
namespace CypherAssist.Completion
open Token Grammar Schema

/-- Why a rule candidate offers nothing. -/
inductive Discard where
  | noSchemaName
  | aliasComplete
  | newName
  | noCompletions (rule : Rule)
  deriving DecidableEq, Repr

/-- The wording of a reason. -/
def Discard.message : Discard → String
  | .noSchemaName => "name is not a schema name"
  | .aliasComplete => "alias name already complete"
  | .newName => "naming a new alias or database"
  | .noCompletions rule => "no completions for rule " ++ rule.name

/-- What a rule candidate offers. -/
inductive Classification where
  | completions (items : List Item)
  | discarded (reason : Discard)
  deriving DecidableEq, Repr

namespace Classification

/-- The items offered. -/
def items : Classification → List Item
  | .completions items => items
  | .discarded _ => []

end Classification

/-- Rules of a plain name or a label. -/
def nameRules : List Rule := [.unescapedSymbolicNameString, .symbolicLabelNameString]

/-- Rules of what can be called. -/
def callableRules : List Rule := [.procedureName, .functionName]

/-- Commands in which an alias names something that does not exist yet. -/
def creatingRules : List Rule := [.createAlias, .createDatabase, .createCompositeDatabase]

/-- Commands in which an alias cannot be a database. -/
def aliasOnlyRules : List Rule := [.dropAlias, .alterAlias, .showAliases]

/-- The meaning of a name. Function names draw on the procedures too. -/
def classifyName (enclosing : List Rule) (catalog : Catalog) : Classification :=
  if enclosing.any callableRules.contains then
    .completions (items catalog.procedureNames .function)
  else if enclosing.contains .relationshipPattern then
    .completions (items catalog.relationshipTypes .typeParameter)
  else if enclosing.contains .nodePattern then
    .completions (items catalog.labels .typeParameter)
  else if enclosing.contains .labelExpression then
    .completions (items (catalog.relationshipTypes ++ catalog.labels) .typeParameter)
  else .discarded .noSchemaName

/-- Whether a blank follows the token with the given stream index, which may be −1. -/
def blankFollows (tokens : List Token) (index : Int) : Bool :=
  (tokens[(index + 1).toNat]?.map (·.kind)) = some .blank

/-- The meaning of an alias or database name. A dotted alias may go on behind a blank, but a blank
after its first part is taken for its end. -/
def classifyAlias (candidate : RuleCandidate) (catalog : Catalog) (tokens : List Token) :
    Classification :=
  if blankFollows tokens candidate.start then .discarded .aliasComplete
  else if candidate.enclosing.any creatingRules.contains then .discarded .newName
  else if candidate.enclosing.any aliasOnlyRules.contains then
    .completions (items catalog.aliasNames .value)
  else .completions (items (catalog.databaseNames ++ catalog.aliasNames) .value)

/-- What a rule candidate offers, or why it offers nothing. -/
def classify (candidate : RuleCandidate) (catalog : Catalog) (tokens : List Token) :
    Classification :=
  if nameRules.contains candidate.rule then classifyName candidate.enclosing catalog
  else if candidate.rule = .symbolicAliasName then classifyAlias candidate catalog tokens
  else .discarded (.noCompletions candidate.rule)

/-- The items of all rule candidates in turn. -/
def ruleItems (candidates : List RuleCandidate) (catalog : Catalog) (tokens : List Token) :
    List Item :=
  candidates.flatMap fun candidate => (classify candidate catalog tokens).items

end CypherAssist.Completion
