import CypherAssist.Completion.Config
import CypherAssist.Proofs.Grammar.Phase

/-! How far a command has come. A keyword may be followed by different words in different commands,
and in a query by anything. What must follow it at the caret is told by the tokens before the caret
alone: by the command that they have begun, if any, and by whether they end in the word IS. A finite
check of all right-hand sides shows this, but for two keywords. -/
namespace CypherAssist.Completion
open Token Grammar

/-- How far the text has come: to the beginning of a statement, to the object of CREATE or DROP, to
the rest of an administration command, or into a query, where the word IS may be the last one. -/
inductive Progress where
  | begun
  | create | createAlias | createDatabase
  | drop | dropAlias | dropDatabase
  | alter
  | query | test
  deriving DecidableEq

namespace Progress

def all : List Progress :=
  [begun, create, createAlias, createDatabase, drop, dropAlias, dropDatabase, alter, query, test]

/-- The words that take a command on. -/
def steps : Progress → List (Keyword × Progress)
  | begun => [(.CREATE, create), (.DROP, drop), (.ALTER, alter)]
  | create =>
    [(.OR, create), (.REPLACE, create), (.ALIAS, createAlias), (.COMPOSITE, createDatabase),
      (.DATABASE, createDatabase)]
  | drop => [(.ALIAS, dropAlias), (.COMPOSITE, dropDatabase), (.DATABASE, dropDatabase)]
  | _ => []

/-- The rests of commands, which names do not lead out of. -/
def commands : List Progress := [createAlias, createDatabase, dropAlias, dropDatabase, alter]

/-- A token takes the text on. An equals sign leads from a command into a query, since the words in
front of it were names there. -/
def advance (progress : Progress) (kind : Kind) : Progress :=
  if kind = .symbol .semicolon then begun
  else
    let next? := match kind with
      | .keyword word => progress.steps.lookup word
      | _ => none
    match next? with
    | some next => next
    | none =>
      if progress ∈ commands ∧ kind ∉ [.symbol .leftBrace, .symbol .equals] then progress
      else if kind = .keyword .IS then test
      else query

/-- The rules that begin a query. -/
def queries : List Rule :=
  [.regularQuery, .singleQuery, .clause, .useClause, .matchClause, .createClause, .mergeClause,
    .deleteClause, .setClause, .removeClause, .withClause, .returnClause, .unwindClause,
    .callClause]

/-- The rules that begin a pattern. -/
def patterns : List Rule := [.patternList, .pattern, .patternElement, .nodePattern]

/-- The names in a command. -/
def names : List Rule :=
  [.symbolicAliasName, .symbolicNameString, .escapedSymbolicNameString,
    .unescapedSymbolicNameString, .parameter]

/-- How far a rule may take the text. -/
def ends (rule : Rule) : Progress → List Progress
  | query | test => if rule = .statements then all else [query, test]
  | begun => if rule ∈ queries then [query, test] else all
  | create => if rule ∈ patterns then [query, test] else all
  | drop => all
  | command =>
    if rule ∈ names then [command] else if rule = .mapLiteral then [query, test] else all

def scheme : Scheme Progress where
  all := all
  listed progress := by cases progress <;> decide
  advance := advance
  ends := ends

theorem scheme_closed : scheme.Closed cypher := by
  have checked : ∀ rule ∈ Rule.all, ∀ progress ∈ all, ends rule progress = all ∨
      scheme.leads (definition rule) progress ⊆ ends rule progress := by
    decide +kernel
  rintro rule element ⟨rfl⟩ progress
  rcases checked rule (Rule.mem_all rule) progress (scheme.listed progress) with whole | inside
  · intro other _
    show other ∈ ends rule progress
    rw [whole]
    exact scheme.listed other
  · exact inside

/-- How far the text has come where a rule is entered outside of names. -/
def enters (rule : Rule) : List Progress :=
  if rule ∈ queries then [begun, query, test]
  else if rule ∈ patterns ++ [.variableName, .symbolicNameString] then [create, query, test]
  else match rule with
  | .statements | .statement | .command | .createCommand | .dropCommand | .alterCommand
  | .showCommand | .startDatabase | .stopDatabase => [begun]
  | .createAlias | .createDatabase | .createCompositeDatabase => [create]
  | .dropAlias | .dropDatabase => [drop]
  | .alterAlias => [alter]
  | .mapLiteral => [createAlias, alter, query, test]
  | .waitClause => [createDatabase, dropDatabase, query, test]
  | .returnBody | .returnItems | .returnItem | .orderItem | .expression | .expression11
  | .expression10 | .expression9 => [query]
  | _ => [query, test]

/-- The words that are due behind a word at this point of a text only. -/
def dueHere : Progress → List (Keyword × List Keyword)
  | create => [(.OR, [.REPLACE])]
  | createAlias =>
    [(.IF, [.NOT, .EXISTS, .FOR, .DATABASE]), (.NOT, [.EXISTS, .FOR, .DATABASE]),
      (.EXISTS, [.FOR, .DATABASE]), (.FOR, [.DATABASE])]
  | createDatabase => [(.IF, [.NOT, .EXISTS]), (.NOT, [.EXISTS])]
  | dropAlias =>
    [(.IF, [.EXISTS, .FOR, .DATABASE]), (.EXISTS, [.FOR, .DATABASE]), (.FOR, [.DATABASE])]
  | dropDatabase => [(.IF, [.EXISTS])]
  | alter =>
    [(.IF, [.EXISTS, .SET, .DATABASE]), (.EXISTS, [.SET, .DATABASE]), (.SET, [.DATABASE])]
  | test => [(.NOT, [.NULL])]
  | _ => []

/-- The words that are due behind a word wherever it stands outside of names. -/
def dueAnywhere : List (Keyword × List Keyword) :=
  [(.OPTIONAL, [.MATCH]), (.DETACH, [.DELETE]), (.ORDER, [.BY]), (.STARTS, [.WITH]),
    (.ENDS, [.WITH]), (.START, [.DATABASE]), (.STOP, [.DATABASE]), (.DEFAULT, [.DATABASE]),
    (.HOME, [.DATABASE]), (.COMPOSITE, [.DATABASE])]

/-- The words that must follow a word. -/
def due (progress : Progress) (word : Keyword) : List Keyword :=
  ((progress.dueHere ++ dueAnywhere).lookup word).getD []

/-- A keyword stands in front of what is due behind it. This is not said of the word IS, which tests
for a label or for null, nor of CREATE where a command may begin with it, since there DATABASE may
stand behind it as well as OR REPLACE. -/
def foresees (site : Site Progress) : Bool :=
  match site.part, site.follow with
  | .token (.keyword .IS), _ => true
  | .token (.keyword .CREATE), [.optional (.sequence [.token (.keyword .OR),
      .token (.keyword .REPLACE)]), .choice [_, _, .reference .createDatabase]] => true
  | .token (.keyword word), follow =>
    followUp ({} : Config).ignored follow = ((due site.phase word).map .keyword, false)
  | _, _ => true

/-- A rule is entered where it is listed to be, unless it is a name. -/
def admits (site : Site Progress) : Bool :=
  match site.part with
  | .reference target => target ∈ ({} : Config).preferred ∨ site.phase ∈ enters target
  | _ => true

theorem sites_checked {rule : Rule} (plain : rule ∉ ({} : Config).preferred) {progress : Progress}
    (entered : progress ∈ enters rule) {site : Site Progress}
    (inside : site ∈ scheme.sites (definition rule) [] progress) : foresees site ∧ admits site := by
  have checked : ∀ rule ∈ Rule.all, rule ∉ ({} : Config).preferred → ∀ progress ∈ enters rule,
      ∀ site ∈ scheme.sites (definition rule) [] progress, foresees site ∧ admits site := by
    decide +kernel
  exact checked rule (Rule.mem_all rule) plain progress entered site inside

theorem guards : scheme.Guards cypher (· ∉ ({} : Config).preferred) enters := by
  rintro rule element ⟨rfl⟩ plain progress entered site inside target same admitted
  have admits := (sites_checked plain entered inside).2
  rw [Progress.admits, same] at admits
  exact (of_decide_eq_true admits).resolve_left admitted

end Progress

end CypherAssist.Completion
