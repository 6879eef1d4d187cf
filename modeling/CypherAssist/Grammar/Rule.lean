/-! The rules of the Cypher grammar. The set is closed: every inner node of a syntax tree carries
one of these rules. -/
namespace CypherAssist.Grammar

/-- A rule of the grammar, from a whole document down to the names in it. -/
inductive Rule where
  | statements | statement | regularQuery | unionMark | singleQuery | clause | useClause
  | graphReference | matchClause | whereClause | createClause | mergeClause | mergeAction
  | deleteClause | setClause | setItem | removeClause | removeItem | withClause | returnClause
  | returnBody | returnItems | returnItem | orderBy | orderItem | skipClause | limitClause
  | unwindClause | callClause | subquery | procedureName | procedureArguments | yieldClause
  | yieldItem | namespacePath | patternList | pattern | patternElement | nodePattern
  | relationshipPattern | leftArrow | arrowLine | rightArrow | pathLength | properties
  | nodeLabels | labelExpression | labelExpression4 | labelExpression3 | labelExpression2
  | labelExpression1 | expression | expression11 | expression10 | expression9 | expression8
  | expression7 | comparisonExpression6 | expression6 | expression5 | expression4 | expression3
  | expression2 | postfixOperator | propertyLookup | expression1 | literal | numberLiteral
  | listLiteral | mapLiteral | parameter | caseExpression | existsExpression
  | parenthesizedExpression | functionInvocation | functionName | variableName | propertyKeyName
  | command | createCommand | createAlias | createDatabase | createCompositeDatabase
  | dropCommand | dropAlias | dropDatabase | alterCommand | alterAlias | showCommand
  | showAliases | showDatabase | showProcedures | showFunctions | startDatabase | stopDatabase
  | waitClause | symbolicAliasName | symbolicNameString | escapedSymbolicNameString
  | unescapedSymbolicNameString | symbolicLabelNameString | stringLiteral
  deriving DecidableEq, Repr

namespace Rule

/-- Every rule once. -/
def all : List Rule :=
  [.statements, .statement, .regularQuery, .unionMark, .singleQuery, .clause, .useClause,
   .graphReference, .matchClause, .whereClause, .createClause, .mergeClause, .mergeAction,
   .deleteClause, .setClause, .setItem, .removeClause, .removeItem, .withClause, .returnClause,
   .returnBody, .returnItems, .returnItem, .orderBy, .orderItem, .skipClause, .limitClause,
   .unwindClause, .callClause, .subquery, .procedureName, .procedureArguments, .yieldClause,
   .yieldItem, .namespacePath, .patternList, .pattern, .patternElement, .nodePattern,
   .relationshipPattern, .leftArrow, .arrowLine, .rightArrow, .pathLength, .properties,
   .nodeLabels, .labelExpression, .labelExpression4, .labelExpression3, .labelExpression2,
   .labelExpression1, .expression, .expression11, .expression10, .expression9, .expression8,
   .expression7, .comparisonExpression6, .expression6, .expression5, .expression4, .expression3,
   .expression2, .postfixOperator, .propertyLookup, .expression1, .literal, .numberLiteral,
   .listLiteral, .mapLiteral, .parameter, .caseExpression, .existsExpression,
   .parenthesizedExpression, .functionInvocation, .functionName, .variableName, .propertyKeyName,
   .command, .createCommand, .createAlias, .createDatabase, .createCompositeDatabase,
   .dropCommand, .dropAlias, .dropDatabase, .alterCommand, .alterAlias, .showCommand,
   .showAliases, .showDatabase, .showProcedures, .showFunctions, .startDatabase, .stopDatabase,
   .waitClause, .symbolicAliasName, .symbolicNameString, .escapedSymbolicNameString,
   .unescapedSymbolicNameString, .symbolicLabelNameString, .stringLiteral]

/-- The name under which a rule is shown. -/
def name : Rule → String
  | .statements => "statements"
  | .statement => "statement"
  | .regularQuery => "regularQuery"
  | .unionMark => "union"
  | .singleQuery => "singleQuery"
  | .clause => "clause"
  | .useClause => "useClause"
  | .graphReference => "graphReference"
  | .matchClause => "matchClause"
  | .whereClause => "whereClause"
  | .createClause => "createClause"
  | .mergeClause => "mergeClause"
  | .mergeAction => "mergeAction"
  | .deleteClause => "deleteClause"
  | .setClause => "setClause"
  | .setItem => "setItem"
  | .removeClause => "removeClause"
  | .removeItem => "removeItem"
  | .withClause => "withClause"
  | .returnClause => "returnClause"
  | .returnBody => "returnBody"
  | .returnItems => "returnItems"
  | .returnItem => "returnItem"
  | .orderBy => "orderBy"
  | .orderItem => "orderItem"
  | .skipClause => "skip"
  | .limitClause => "limit"
  | .unwindClause => "unwindClause"
  | .callClause => "callClause"
  | .subquery => "subquery"
  | .procedureName => "procedureName"
  | .procedureArguments => "procedureArguments"
  | .yieldClause => "yieldClause"
  | .yieldItem => "yieldItem"
  | .namespacePath => "namespace"
  | .patternList => "patternList"
  | .pattern => "pattern"
  | .patternElement => "patternElement"
  | .nodePattern => "nodePattern"
  | .relationshipPattern => "relationshipPattern"
  | .leftArrow => "leftArrow"
  | .arrowLine => "arrowLine"
  | .rightArrow => "rightArrow"
  | .pathLength => "pathLength"
  | .properties => "properties"
  | .nodeLabels => "nodeLabels"
  | .labelExpression => "labelExpression"
  | .labelExpression4 => "labelExpression4"
  | .labelExpression3 => "labelExpression3"
  | .labelExpression2 => "labelExpression2"
  | .labelExpression1 => "labelExpression1"
  | .expression => "expression"
  | .expression11 => "expression11"
  | .expression10 => "expression10"
  | .expression9 => "expression9"
  | .expression8 => "expression8"
  | .expression7 => "expression7"
  | .comparisonExpression6 => "comparisonExpression6"
  | .expression6 => "expression6"
  | .expression5 => "expression5"
  | .expression4 => "expression4"
  | .expression3 => "expression3"
  | .expression2 => "expression2"
  | .postfixOperator => "postFix"
  | .propertyLookup => "property"
  | .expression1 => "expression1"
  | .literal => "literal"
  | .numberLiteral => "numberLiteral"
  | .listLiteral => "listLiteral"
  | .mapLiteral => "map"
  | .parameter => "parameter"
  | .caseExpression => "caseExpression"
  | .existsExpression => "existsExpression"
  | .parenthesizedExpression => "parenthesizedExpression"
  | .functionInvocation => "functionInvocation"
  | .functionName => "functionName"
  | .variableName => "variable"
  | .propertyKeyName => "propertyKeyName"
  | .command => "command"
  | .createCommand => "createCommand"
  | .createAlias => "createAlias"
  | .createDatabase => "createDatabase"
  | .createCompositeDatabase => "createCompositeDatabase"
  | .dropCommand => "dropCommand"
  | .dropAlias => "dropAlias"
  | .dropDatabase => "dropDatabase"
  | .alterCommand => "alterCommand"
  | .alterAlias => "alterAlias"
  | .showCommand => "showCommand"
  | .showAliases => "showAliases"
  | .showDatabase => "showDatabase"
  | .showProcedures => "showProcedures"
  | .showFunctions => "showFunctions"
  | .startDatabase => "startDatabase"
  | .stopDatabase => "stopDatabase"
  | .waitClause => "waitClause"
  | .symbolicAliasName => "symbolicAliasName"
  | .symbolicNameString => "symbolicNameString"
  | .escapedSymbolicNameString => "escapedSymbolicNameString"
  | .unescapedSymbolicNameString => "unescapedSymbolicNameString"
  | .symbolicLabelNameString => "symbolicLabelNameString"
  | .stringLiteral => "stringLiteral"

/-- The list of rules misses none. -/
theorem mem_all (rule : Rule) : rule ∈ all := by
  cases rule <;> decide

end Rule

end CypherAssist.Grammar
