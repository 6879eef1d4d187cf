import CypherAssist.Grammar.Element

/-! The Cypher grammar. A keyword may serve as a name, so the grammar is ambiguous; the order of
the options of a choice decides which reading is kept. -/
namespace CypherAssist.Grammar
open Token Element Rule Keyword Symbol Kind

/-- The tokens that may stand for a name without backticks. -/
def names : List Element :=
  .token plainName :: Keyword.all.map fun word => .token (.keyword word)

/-- The right-hand side of each rule. -/
def definition : Rule → Element
  -- Documents and clauses.
  | .statements => seq [statement, many [semicolon, statement], opt [semicolon]]
  | .statement => alt [command, regularQuery]
  | .regularQuery => seq [singleQuery, many [unionMark, singleQuery]]
  | .unionMark => seq [UNION, opt [alt [ALL, DISTINCT]]]
  | .singleQuery => many1 [clause]
  | .clause =>
    alt [useClause, matchClause, createClause, mergeClause, deleteClause, setClause, removeClause,
      withClause, returnClause, unwindClause, callClause]
  | .useClause => seq [USE, graphReference]
  | .graphReference => alt [seq [leftParen, graphReference, rightParen], symbolicAliasName]
  | .matchClause => seq [opt [OPTIONAL], MATCH, patternList, opt [whereClause]]
  | .whereClause => seq [WHERE, expression]
  | .createClause => seq [CREATE, patternList]
  | .mergeClause => seq [MERGE, pattern, many [mergeAction]]
  | .mergeAction => seq [ON, alt [MATCH, CREATE], setClause]
  | .deleteClause => seq [opt [DETACH], DELETE, commaList expression]
  | .setClause => seq [SET, commaList setItem]
  | .setItem =>
    seq [variableName, alt [seq [many1 [propertyLookup], equals, expression],
      seq [equals, expression], seq [plusEq, expression], nodeLabels]]
  | .removeClause => seq [REMOVE, commaList removeItem]
  | .removeItem => seq [variableName, alt [many1 [propertyLookup], nodeLabels]]
  | .withClause => seq [WITH, returnBody, opt [whereClause]]
  | .returnClause => seq [RETURN, returnBody]
  | .returnBody =>
    seq [opt [DISTINCT], returnItems, opt [orderBy], opt [skipClause], opt [limitClause]]
  | .returnItems => seq [alt [times, returnItem], many [comma, returnItem]]
  | .returnItem => seq [expression, opt [AS, variableName]]
  | .orderBy => seq [ORDER, BY, commaList orderItem]
  | .orderItem => seq [expression, opt [alt [ASC, ASCENDING, DESC, DESCENDING]]]
  | .skipClause => seq [SKIP, expression]
  | .limitClause => seq [LIMIT, expression]
  | .unwindClause => seq [UNWIND, expression, AS, variableName]
  | .callClause =>
    seq [CALL, alt [subquery, seq [procedureName, opt [procedureArguments], opt [yieldClause]]]]
  | .subquery => seq [leftBrace, regularQuery, rightBrace]
  | .procedureName => seq [namespacePath, symbolicNameString]
  | .procedureArguments => seq [leftParen, opt [commaList expression], rightParen]
  | .yieldClause => seq [YIELD, alt [times, commaList yieldItem], opt [whereClause]]
  | .yieldItem => seq [variableName, opt [AS, variableName]]
  | .namespacePath => many [symbolicNameString, dot]
  -- Patterns.
  | .patternList => commaList pattern
  | .pattern => seq [opt [variableName, equals], patternElement]
  | .patternElement =>
    alt [seq [nodePattern, many [relationshipPattern, nodePattern]],
      seq [leftParen, patternElement, rightParen]]
  | .nodePattern =>
    seq [leftParen, opt [variableName], opt [labelExpression], opt [properties],
      opt [WHERE, expression], rightParen]
  | .relationshipPattern =>
    seq [opt [leftArrow], arrowLine, opt [leftBracket, opt [variableName], opt [labelExpression],
      opt [pathLength], opt [properties], opt [WHERE, expression], rightBracket], arrowLine,
      opt [rightArrow]]
  | .leftArrow => seq [less]
  | .arrowLine => seq [minus]
  | .rightArrow => seq [greater]
  | .pathLength => seq [times, opt [alt [seq [opt [integer], dotDot, opt [integer]], integer]]]
  | .properties => alt [mapLiteral, parameter]
  | .nodeLabels => many1 [colon, symbolicLabelNameString]
  | .labelExpression => seq [alt [colon, IS], labelExpression4]
  | .labelExpression4 => seq [labelExpression3, many [bar, opt [colon], labelExpression3]]
  | .labelExpression3 => seq [labelExpression2, many [alt [ampersand, colon], labelExpression2]]
  | .labelExpression2 => seq [many [exclamation], labelExpression1]
  | .labelExpression1 =>
    alt [seq [leftParen, labelExpression4, rightParen], percent, symbolicLabelNameString]
  -- Expressions, the loosest binding first.
  | .expression => seq [expression11, many [OR, expression11]]
  | .expression11 => seq [expression10, many [XOR, expression10]]
  | .expression10 => seq [expression9, many [AND, expression9]]
  | .expression9 => seq [many [NOT], expression8]
  | .expression8 =>
    seq [expression7, many [alt [equals, notEq, lessEq, greaterEq, less, greater], expression7]]
  | .expression7 => seq [expression6, opt [comparisonExpression6]]
  | .comparisonExpression6 =>
    alt [seq [alt [regexEq, seq [STARTS, WITH], seq [ENDS, WITH], CONTAINS, IN], expression6],
      seq [IS, NULL], seq [IS, NOT, NULL]]
  | .expression6 => seq [expression5, many [alt [plus, minus], expression5]]
  | .expression5 => seq [expression4, many [alt [times, divide, percent], expression4]]
  | .expression4 => seq [expression3, many [power, expression3]]
  | .expression3 => seq [many [alt [plus, minus]], expression2]
  | .expression2 => seq [expression1, many [postfixOperator]]
  | .postfixOperator =>
    alt [propertyLookup, labelExpression, seq [leftBracket,
      alt [seq [expression, opt [dotDot, opt [expression]]], seq [dotDot, expression]],
      rightBracket]]
  | .propertyLookup => seq [dot, propertyKeyName]
  | .expression1 =>
    alt [literal, parameter, caseExpression, existsExpression, parenthesizedExpression,
      functionInvocation, variableName]
  | .literal => alt [numberLiteral, stringLiteral, mapLiteral, listLiteral, TRUE, FALSE, NULL]
  | .numberLiteral => alt [integer, decimal]
  | .listLiteral => seq [leftBracket, opt [commaList expression], rightBracket]
  | .mapLiteral =>
    seq [leftBrace, opt [commaList (seq [propertyKeyName, colon, expression])], rightBrace]
  | .parameter => seq [dollar, alt [symbolicNameString, integer]]
  | .caseExpression =>
    seq [CASE, opt [expression], many1 [WHEN, expression, THEN, expression],
      opt [ELSE, expression], END]
  | .existsExpression =>
    seq [EXISTS, leftBrace, alt [regularQuery, seq [patternList, opt [whereClause]]], rightBrace]
  | .parenthesizedExpression => seq [leftParen, expression, rightParen]
  | .functionInvocation =>
    seq [functionName, leftParen, opt [alt [times, seq [opt [DISTINCT], commaList expression]]],
      rightParen]
  | .functionName => seq [namespacePath, symbolicNameString]
  | .variableName => seq [symbolicNameString]
  | .propertyKeyName => seq [symbolicNameString]
  -- Administration commands.
  | .command =>
    alt [createCommand, dropCommand, alterCommand, showCommand, startDatabase, stopDatabase]
  | .createCommand =>
    seq [CREATE, opt [OR, REPLACE], alt [createAlias, createCompositeDatabase, createDatabase]]
  | .createAlias =>
    seq [ALIAS, symbolicAliasName, opt [IF, NOT, EXISTS], FOR, DATABASE, symbolicAliasName,
      opt [PROPERTIES, mapLiteral]]
  | .createDatabase => seq [DATABASE, symbolicAliasName, opt [IF, NOT, EXISTS], opt [waitClause]]
  | .createCompositeDatabase =>
    seq [COMPOSITE, DATABASE, symbolicAliasName, opt [IF, NOT, EXISTS], opt [waitClause]]
  | .dropCommand => seq [DROP, alt [dropAlias, dropDatabase]]
  | .dropAlias => seq [ALIAS, symbolicAliasName, opt [IF, EXISTS], FOR, DATABASE]
  | .dropDatabase =>
    seq [opt [COMPOSITE], DATABASE, symbolicAliasName, opt [IF, EXISTS], opt [waitClause]]
  | .alterCommand => seq [ALTER, alterAlias]
  | .alterAlias =>
    seq [ALIAS, symbolicAliasName, opt [IF, EXISTS], SET, DATABASE,
      alt [seq [TARGET, symbolicAliasName], seq [PROPERTIES, mapLiteral]]]
  | .showCommand => seq [SHOW, alt [showAliases, showDatabase, showProcedures, showFunctions]]
  | .showAliases =>
    seq [alt [ALIAS, ALIASES], opt [symbolicAliasName], FOR, alt [DATABASE, DATABASES]]
  | .showDatabase =>
    seq [alt [seq [alt [DEFAULT, HOME], DATABASE],
      seq [alt [DATABASE, DATABASES], opt [symbolicAliasName]]], opt [yieldClause]]
  | .showProcedures => seq [alt [PROCEDURE, PROCEDURES], opt [yieldClause]]
  | .showFunctions => seq [alt [FUNCTION, FUNCTIONS], opt [yieldClause]]
  | .startDatabase => seq [START, DATABASE, symbolicAliasName, opt [waitClause]]
  | .stopDatabase => seq [STOP, DATABASE, symbolicAliasName, opt [waitClause]]
  | .waitClause => alt [WAIT, NOWAIT]
  -- Names.
  | .symbolicAliasName =>
    alt [seq [symbolicNameString, many [dot, symbolicNameString]], parameter]
  | .symbolicNameString => alt [escapedSymbolicNameString, unescapedSymbolicNameString]
  | .escapedSymbolicNameString => seq [quotedName]
  | .unescapedSymbolicNameString => alt names
  | .symbolicLabelNameString => alt (quotedName :: names)
  | .stringLiteral => alt [singleQuoted, doubleQuoted]

/-- Cypher defines every rule. -/
def cypher : Grammar := fun rule => some (definition rule)

/-- The rule of a whole document. -/
def start : Rule := .statements

end CypherAssist.Grammar
