import CypherAssist.Proofs.Completion.Names
import CypherAssist.Proofs.Grammar.Enclosing
import CypherAssist.Proofs.Token.Extent
import CypherAssist.Proofs.Token.Relocation

/-! What an alias offers once a blank has been typed behind its name. The grammar would go on with a
dot behind every part of the name, so the candidate stays, and one token decides whether names are
offered for it: the one directly behind the first part. A name of several parts is taken for
finished only where a blank parts the first of them from its dot. -/
namespace CypherAssist.Completion
open Token Grammar Schema

variable {limits : Limits}

/-! ## Names of several parts -/

/-- The kinds that may stand for a part of a name: names, and keywords used as one. -/
inductive NamePart : Kind → Prop where
  | plain : NamePart .plainName
  | quoted : NamePart .quotedName
  | keyword (word : Keyword) : NamePart (.keyword word)

/-- The kinds of one or more parts of a name with a dot between each and the next. -/
inductive DottedName : List Kind → Prop where
  | single {kind : Kind} (part : NamePart kind) : DottedName [kind]
  | dotted {kind : Kind} {kinds : List Kind} (part : NamePart kind) (others : DottedName kinds) :
      DottedName (kind :: .symbol .dot :: kinds)

variable {kind : Kind} {kinds : List Kind} {position : Nat}

/-- The grammar takes one token for a part of a name. -/
theorem word_name_iff : Word cypher (.reference .symbolicNameString) kinds ↔
    ∃ kind, kinds = [kind] ∧ NamePart kind := by
  constructor
  · intro word
    cases word with
    | reference defined either =>
      cases defined
      cases either with
      | choice member chosen =>
        rcases List.mem_pair.mp member with rfl | rfl
        · cases chosen with
          | reference defined quoted =>
            cases defined
            cases quoted
            exact ⟨_, rfl, .quoted⟩
        · cases chosen with
          | reference defined plain =>
            cases defined
            cases plain with
            | choice member chosen =>
              rcases List.mem_cons.mp member with rfl | member
              · cases chosen
                exact ⟨_, rfl, .plain⟩
              · obtain ⟨keyword, -, rfl⟩ := List.mem_map.mp member
                cases chosen
                exact ⟨_, rfl, .keyword keyword⟩
  · rintro ⟨kind, rfl, part⟩
    have unescaped (member : Element.token kind ∈ names) :
        Word cypher (.reference .symbolicNameString) [kind] :=
      .reference rfl (.choice (List.mem_cons_of_mem _ (List.mem_cons_self ..))
        (.reference rfl (.choice member .token)))
    cases part with
    | plain => exact unescaped (List.mem_cons_self ..)
    | quoted =>
      exact .reference rfl (.choice (List.mem_cons_self ..) (.reference rfl .token))
    | keyword word =>
      exact unescaped (List.mem_cons_of_mem _ (List.mem_map_of_mem (Keyword.mem_all word)))

theorem dottedName_append (part : NamePart kind)
    (others : Word cypher (.repeated (.sequence
      [.token (.symbol .dot), .reference .symbolicNameString])) kinds) :
    DottedName (kind :: kinds) := by
  generalize same : Element.repeated _ = element at others
  induction others generalizing kind with
  | done => exact .single part
  | again pair _ _ ih =>
    cases same
    cases pair with
    | sequence dot behind =>
      cases dot
      cases behind with
      | sequence name nothing =>
        cases nothing
        obtain ⟨next, rfl, named⟩ := word_name_iff.mp name
        exact .dotted part (ih named rfl)
  | _ => cases same

/-- The names of several parts are those with dots between them. -/
theorem word_nameParts_iff : Word cypher nameParts kinds ↔ DottedName kinds := by
  constructor
  · intro word
    cases word with
    | sequence first others =>
      cases others with
      | sequence others nothing =>
        cases nothing
        obtain ⟨kind, rfl, part⟩ := word_name_iff.mp first
        rw [List.append_nil]
        exact dottedName_append part others
  · intro dotted
    induction dotted with
    | single part =>
      exact .sequence (word_name_iff.mpr ⟨_, rfl, part⟩) (.sequence .done .empty)
    | @dotted kind kinds part _ ih =>
      cases ih with
      | sequence first others =>
        cases others with
        | sequence others nothing =>
          cases nothing
          have pair : Word cypher (.sequence [.token (.symbol .dot),
              .reference .symbolicNameString]) _ := .sequence .token (.sequence first .empty)
          have name : Word cypher (.reference .symbolicNameString) [kind] :=
            word_name_iff.mpr ⟨kind, rfl, part⟩
          simpa [nameParts] using Word.sequence name (.sequence (.again pair others) .empty)

/-- A name of several parts ends in one of them. -/
theorem last_of_dottedName (dotted : DottedName kinds) :
    ∃ kind ∈ kinds.getLast?, NamePart kind := by
  induction dotted with
  | single part => exact ⟨_, rfl, part⟩
  | dotted _ others ih =>
    cases others with
    | single => exact ih
    | dotted => exact ih

theorem ne_dollar_of_namePart (named : ∃ kind ∈ kinds.getLast?, NamePart kind) :
    kinds.getLast? ≠ some (.symbol .dollar) := by
  obtain ⟨kind, last, part⟩ := named
  intro sign
  cases Option.some.inj (last.symm.trans sign)
  cases part

/-! ## The end of a text -/

variable {chars : List Char} {token : Token}

theorem index_eq_of_body {front behind : List Token}
    (split : (Stream.ofText chars).body = front ++ token :: behind) :
    token.index = front.length := by
  have numbered := Stream.index_body chars
  rw [split] at numbered
  have here := congrArg (·[front.length]?) numbered
  simpa using here

/-- At the end of a text that ends with a blank, all visible tokens are before the caret. -/
theorem tokensUntil_of_blank
    (blank : (Stream.ofText chars).body.getLast?.map (·.kind) = some .blank) :
    tokensUntil (caretIndex (Stream.ofText chars)) (Stream.ofText chars).toList =
      (Stream.ofText chars).visible ++ [(Stream.ofText chars).last] := by
  obtain ⟨space, ends, same⟩ := Option.map_eq_some_iff.mp blank
  obtain ⟨front, split⟩ := List.getLast?_eq_some_iff.mp ends
  have hidden : space.isHidden = true := by rw [Token.isHidden, same]; rfl
  have caret : caretIndex (Stream.ofText chars) = front.length := by
    rw [caretIndex, split, List.length_append]
    rfl
  have ahead : ∀ token ∈ front, token.index < caretIndex (Stream.ofText chars) ∧
      token.isEnd = false := by
    intro token member
    obtain ⟨early, late, rfl⟩ := List.append_of_mem member
    rw [List.append_assoc, List.cons_append] at split
    have place := index_eq_of_body split
    have inside : token ∈ (Stream.ofText chars).body := by
      rw [split]
      exact List.mem_append_right early (List.mem_cons_self ..)
    refine ⟨?_, Stream.isEnd_of_mem_body inside⟩
    rw [caret, place, List.length_append, List.length_cons]
    omega
  rw [Stream.toList, Stream.visible, split, List.append_assoc, tokensUntil_append ahead,
    List.filter_append, List.append_assoc]
  simp [tokensUntil, hidden, Stream.isHidden_last, Stream.isEnd_last]

/-- The name of an alias that ends a stream: its parts are the last visible tokens, from the one
where a candidate starts, and the gap is the token directly behind the first of them. -/
structure Spelled (stream : Stream) (start : Int) (first gap : Token) (more : List Token) :
    Prop where
  parts : DottedName ((first :: more).map (·.kind))
  visible : first :: more <:+ stream.visible
  starts : start = first.index
  adjoins : [first, gap] <:+: stream.body
  alone : more = [] → gap.isHidden

/-- In a text that ends with a blank, some token is directly behind each visible one, a hidden one
behind the last of them. -/
theorem exists_gap {first : Token} {more : List Token}
    (blank : (Stream.ofText chars).body.getLast?.map (·.kind) = some .blank)
    (visible : first :: more <:+ (Stream.ofText chars).visible) :
    ∃ gap, [first, gap] <:+: (Stream.ofText chars).body ∧ (more = [] → gap.isHidden) := by
  obtain ⟨earlier, split⟩ := visible
  obtain ⟨front, rest, body, -, ending⟩ := List.filter_eq_append_iff.mp split.symm
  obtain ⟨skipped, behind, same, -, shown, others⟩ := List.filter_eq_cons_iff.mp ending
  subst same
  cases behind with
  | nil =>
    have last : (Stream.ofText chars).body.getLast? = some first := by simp [body]
    rw [last, Option.map_some, Option.some.injEq] at blank
    simp [Token.isHidden, blank, Kind.isHidden] at shown
  | cons gap behind =>
    refine ⟨gap, ⟨front ++ skipped, behind, by simp [body]⟩, ?_⟩
    rintro rfl
    by_contra visible
    simp [visible] at others

theorem getElem?_of_adjoining {first gap : Token}
    (adjoins : [first, gap] <:+: (Stream.ofText chars).body) :
    (Stream.ofText chars).toList[first.index + 1]? = some gap := by
  obtain ⟨front, behind, split⟩ := adjoins
  have body : (Stream.ofText chars).body = front ++ first :: gap :: behind := by
    rw [← split, List.append_assoc]
    rfl
  rw [Stream.toList, index_eq_of_body body, body]
  simp

/-! ## Candidates -/

variable {tokens : List Token} {candidates : Candidates} {candidate : RuleCandidate}

/-- A candidate for an alias is where some path stands in front of one, at the caret or with a part
of the name still to come there. -/
theorem stands_of_alias (backed : Backed cypher (caretAmong tokens) Grammar.start candidates)
    (member : candidate ∈ candidates.rules) (several : candidate.rule = .symbolicAliasName) :
    ∃ position outer behind,
      candidate = (caretAmong tokens).ruleAt .symbolicAliasName position outer ∧
      Stands cypher (caretAmong tokens).before Grammar.start outer
        (.reference .symbolicAliasName) behind position ∧
      (position ≠ (caretAmong tokens).position → position < (caretAmong tokens).position ∧
        ∃ asked, Meets cypher (caretAmong tokens).Admits (caretAmong tokens).before
          (definition .symbolicAliasName) position (caretAmong tokens).position asked) := by
  obtain ⟨-, position, outer, same, backs⟩ := backed.rules candidate member
  rw [several] at same backs
  refine ⟨position, outer, ?_⟩
  rcases backs with ⟨rfl, -, behind, stands⟩ | ⟨inner, kind, follow, clear, -, stands⟩
  · exact ⟨behind, same, stands, fun elsewhere => absurd rfl elsewhere⟩
  · obtain ⟨body, ⟨⟩, inside, meets⟩ := exists_body_of_stands stands rfl clear .token
    cases around_of_stands inside with
    | within _ _ entered =>
      refine ⟨_, same, entered, fun elsewhere => ⟨?_, kind, meets⟩⟩
      obtain ⟨seen, -, -, place⟩ := awaits_of_meets meets
      simp only at place
      omega

/-- An alias reported at the last of some tokens starts there, or its parts are the tokens before it
from the start of the alias on, unless the sign of a parameter is directly before it. -/
theorem parts_of_candidate {shown : List Token} {last : Token}
    (backed : Backed cypher (caretAmong (shown ++ [last])) Grammar.start candidates)
    (member : candidate ∈ candidates.rules) (several : candidate.rule = .symbolicAliasName)
    (plain : (shown.map (·.kind)).getLast? ≠ some (.symbol .dollar)) :
    candidate.start = last.index ∨ ∃ first more, first :: more <:+ shown ∧
      candidate.start = first.index ∧ DottedName ((first :: more).map (·.kind)) := by
  obtain ⟨position, outer, behind, rfl, -, inside⟩ := stands_of_alias backed member several
  have caret : (caretAmong (shown ++ [last])).position = shown.length := by
    simp [caretAmong, Caret.position]
  have before : (caretAmong (shown ++ [last])).before = shown.map (·.kind) := by
    simp [caretAmong, Caret.before_eq]
  by_cases here : position = (caretAmong (shown ++ [last])).position
  · refine .inl ?_
    rw [here, caret]
    simp [Caret.ruleAt, caretAmong]
  · refine .inr ?_
    obtain ⟨earlier, asked, meets⟩ := inside here
    rcases parts_or_number earlier meets with ⟨-, parts⟩ | ⟨-, sign⟩
    · rw [caret] at earlier parts
      rw [before] at parts
      have within : position ≤ (shown.map (·.kind)).length := by simpa using Nat.le_of_lt earlier
      obtain ⟨-, -, word⟩ := (spans_iff within).mp parts
      rw [List.take_of_length_le (by simp), ← List.map_drop] at word
      have split := List.drop_eq_getElem_cons earlier
      refine ⟨shown[position], shown.drop (position + 1), ?_, ?_, ?_⟩
      · rw [← split]
        exact List.drop_suffix ..
      · simp [Caret.ruleAt, caretAmong, List.getElem?_append_left earlier,
          List.getElem?_eq_getElem earlier]
      · rw [← split]
        exact word_nameParts_iff.mp word
    · rw [before] at sign
      exact absurd sign plain

/-- The walk to the end of a text finds what is reported there. -/
theorem candidatesOf_of_mem {text : String} (member : candidate ∈ (candidatesAt limits
    (Document.parse limits text) (caretIndex (Document.parse limits text).stream) {}).rules) :
    ∃ candidates, candidatesOf limits (Stream.ofText text.toList) = .ok candidates ∧
      candidate ∈ candidates.rules := by
  rw [candidatesAt_parse] at member
  split at member
  · exact ⟨_, ‹_›, member⟩
  · cases member

/-- At the end of a text that ends with a blank, an alias that starts before the caret is spelled
out there, unless the sign of a parameter is the last visible token. -/
theorem exists_spelled (blank : (Stream.ofText chars).body.getLast?.map (·.kind) = some .blank)
    (ran : candidatesOf limits (Stream.ofText chars) = .ok candidates)
    (member : candidate ∈ candidates.rules) (several : candidate.rule = .symbolicAliasName)
    (begun : candidate.start < caretIndex (Stream.ofText chars))
    (plain : (kindsBefore (Stream.ofText chars)).getLast? ≠ some (.symbol .dollar)) :
    ∃ first gap more, Spelled (Stream.ofText chars) candidate.start first gap more := by
  have backed := collect_backed ran
  have shown := kinds_tokensUntil chars
  rw [tokensUntil_of_blank blank] at backed shown
  rw [List.dropLast_concat] at shown
  rw [← shown] at plain
  rcases parts_of_candidate backed member several plain with
    closing | ⟨first, more, visible, same, parts⟩
  · have last : (Stream.ofText chars).last.index = 0 + (Stream.ofText chars).body.length :=
      (Stream.last_readFrom_place {} 0 chars).1
    rw [closing, last, caretIndex] at begun
    omega
  · obtain ⟨gap, adjoins, alone⟩ := exists_gap blank visible
    exact ⟨first, gap, more, parts, visible, same, adjoins, alone⟩

/-! ## An alias to be dropped -/

/-- The kinds of a document that drops an alias, up to the end of its name. -/
def dropping (name : List Kind) : List Kind := .keyword .DROP :: .keyword .ALIAS :: name

/-- The rules open around the alias that the first statement of a document drops. -/
def droppingAlias : List Frame :=
  [⟨.dropAlias, 1⟩, ⟨.dropCommand, 0⟩, ⟨.command, 0⟩, ⟨.statement, 0⟩, ⟨.statements, 0⟩]

/-- Behind the name of an alias to be dropped a path stands in front of a dot. -/
theorem stands_dropped_alias {name : List Kind} (dotted : DottedName name) :
    ∃ follow, Stands cypher (dropping name) Grammar.start
      (⟨.symbolicAliasName, 2⟩ :: droppingAlias) (.token (.symbol .dot)) follow
        (2 + name.length) := by
  generalize same : dropping name = input
  have found : input[0]? = some (.keyword .DROP) ∧ input[1]? = some (.keyword .ALIAS) := by
    subst same
    exact ⟨rfl, rfl⟩
  have statement : Stands cypher input Grammar.start _ (.reference .statement) _ 0 :=
    stands_begun (.enter .start rfl)
  have command : Stands cypher input Grammar.start _ (.reference .command) _ 0 :=
    .option (.enter statement rfl) (by simp)
  have dropping : Stands cypher input Grammar.start _ (.reference .dropCommand) _ 0 :=
    .option (.enter command rfl) (by simp)
  have either := stands_at [.token (.keyword .DROP)] (.enter dropping rfl) rfl
    (.sequence (.token found.1) .empty)
  have dropped : Stands cypher input Grammar.start _ (.reference .dropAlias) _ 1 :=
    .option either (by simp)
  have several := stands_at [.token (.keyword .ALIAS)] (.enter dropped rfl) rfl
    (.sequence (.token found.2) .empty)
  have parts : Stands cypher input Grammar.start (⟨.symbolicAliasName, 2⟩ :: droppingAlias)
      nameParts _ 2 := .option (.enter several rfl) (List.mem_cons_self ..)
  have placed : name <+: input.drop 2 := by
    subst same
    exact List.prefix_rfl
  obtain ⟨middle, first, others⟩ :=
    spans_cons_iff.mp (spans_of_word (word_nameParts_iff.mpr dotted) placed)
  obtain ⟨_, passed, nothing⟩ := spans_cons_iff.mp others
  cases nothing
  have more := stands_at [.reference .symbolicNameString] parts rfl (.sequence first .empty)
  exact ⟨_, stands_begun (.repeated more passed)⟩

/-- In a short text that drops an alias, a candidate for the alias is reported, where some path
stands in front of it. -/
theorem exists_dropped_alias {text : String} {name : List Kind} (dotted : DottedName name)
    (before : kindsBefore (Stream.ofText text.toList) = dropping name)
    (short : Rule.all.length * (name.length + 3) ≤ limits.collecting) :
    ∃ candidate ∈ (candidatesAt limits (Document.parse limits text)
        (caretIndex (Document.parse limits text).stream) {}).rules,
      candidate.rule = .symbolicAliasName ∧ ∃ position outer behind, position ≤ 2 + name.length ∧
        candidate = (caretAtEnd (Stream.ofText text.toList)).ruleAt .symbolicAliasName position
          outer ∧
        Stands cypher (dropping name) Grammar.start outer (.reference .symbolicAliasName) behind
          position := by
  have seen : (caretAtEnd (Stream.ofText text.toList)).before = dropping name :=
    (before_tokensUntil ..).trans before
  have here : (caretAtEnd (Stream.ofText text.toList)).position = 2 + name.length := by
    rw [← Caret.length_before, seen, dropping, List.length_cons, List.length_cons]
    omega
  obtain ⟨kind, last, part⟩ := last_of_dottedName dotted
  have begun : 0 < name.length := List.length_pos_of_mem (List.mem_of_getLast? last)
  have plain : (kindsBefore (Stream.ofText text.toList)).getLast? ≠ some (.symbol .dollar) := by
    refine ne_dollar_of_namePart ⟨kind, ?_, part⟩
    rw [before, dropping, List.getLast?_cons, List.getLast?_cons, last]
    rfl
  obtain ⟨follow, stands⟩ := stands_dropped_alias dotted
  have outside : (caretAtEnd (Stream.ofText text.toList)).Outside
      (⟨.symbolicAliasName, 2⟩ :: droppingAlias) := by
    intro frame opened entered
    rcases List.mem_cons.mp opened with rfl | opened
    · simp [here, Nat.ne_of_gt begun] at entered
    · have plain : ∀ frame ∈ droppingAlias, frame.rule ∉ ({} : Config).preferred := by decide
      apply plain frame opened
      exact prefers_caretAmong.mp (Bool.and_eq_true_iff.mp entered).2
  have reached : Reached (Stream.ofText text.toList) .symbolicAliasName := by
    refine ⟨2, droppingAlias, .inr ⟨[], .symbol .dot, follow, List.forall_mem_nil _, outside, ?_⟩⟩
    rw [seen, here]
    exact stands
  obtain ⟨candidates, candidate, ran, member, several⟩ :=
    exists_candidate_of_reached reached (by simpa [before, dropping] using short) (by decide)
      fun _ => plain
  obtain ⟨position, outer, behind, same, entered, inside⟩ :=
    stands_of_alias (collect_backed ran) member several
  refine ⟨candidate, ?_, several, position, outer, behind, ?_, same, seen ▸ entered⟩
  · rw [candidatesAt_parse, ran]
    exact member
  · rw [← here]
    by_cases closing : position = (caretAtEnd (Stream.ofText text.toList)).position
    · exact Nat.le_of_eq closing
    · exact Nat.le_of_lt (inside closing).1

/-- The kinds of a name of one part and of one of two parts. -/
def shortNames : List (List Kind) := [[.plainName], [.plainName, .symbol .dot, .plainName]]

/-- A short name in a text that drops an alias starts behind two keywords, and no command that
creates an alias or a database is open there. -/
theorem place_of_dropped_alias {name : List Kind} {outer : List Frame} {behind : List Element}
    (among : name ∈ shortNames) (within : position ≤ 2 + name.length)
    (stands : Stands cypher (dropping name) Grammar.start outer (.reference .symbolicAliasName)
      behind position) :
    position = 2 ∧ ¬ ∃ rule ∈ creatingRules, rule ∈ outer.reverse.map (·.rule) := by
  constructor
  · have word : Word cypher (.reference .symbolicAliasName) [.symbol .dollar, .plainName] := by
      decide +kernel
    have places : ∀ name ∈ shortNames, ∀ place ≤ 2 + name.length, Viable cypher Grammar.start
        ((dropping name).take place ++ [.symbol .dollar, .plainName]) → place = 2 := by
      decide +kernel
    exact places name among position within (viable_of_stands cypher_productive rfl stands word)
  · -- Each command that creates one may say that it is not to exist yet, unlike one that drops it.
    have closed (rule) (ahead : List Kind) (word : Word cypher (.reference rule) ahead)
        (misfits : ∀ name ∈ shortNames, ∀ place ≤ (dropping name).length,
          ¬ Viable cypher Grammar.start ((dropping name).take place ++ ahead)) :
        rule ∉ outer.reverse.map (·.rule) :=
      not_enclosing cypher_productive rfl word (misfits name among) stands
    rintro ⟨rule, creating, opened⟩
    simp only [creatingRules, List.mem_cons, List.not_mem_nil, or_false] at creating
    rcases creating with rfl | rfl | rfl
    · exact closed _ [.keyword .ALIAS, .plainName, .keyword .IF, .keyword .NOT, .keyword .EXISTS,
        .keyword .FOR, .keyword .DATABASE, .plainName] (by decide +kernel) (by decide +kernel)
        opened
    · exact closed _ [.keyword .DATABASE, .plainName, .keyword .IF, .keyword .NOT,
        .keyword .EXISTS] (by decide +kernel) (by decide +kernel) opened
    · exact closed _ [.keyword .COMPOSITE, .keyword .DATABASE, .plainName, .keyword .IF,
        .keyword .NOT, .keyword .EXISTS] (by decide +kernel) (by decide +kernel) opened

/-- A short name in a text that drops an alias is reported from its first part on. -/
theorem exists_short_name {text : String} {name : List Kind} (among : name ∈ shortNames)
    (before : kindsBefore (Stream.ofText text.toList) = dropping name)
    (third : (caretAtEnd (Stream.ofText text.toList)).tokens[2]?.map (·.index) = some 4) :
    ∃ candidate ∈ (candidatesAt ⟨3000, 3000⟩ (Document.parse ⟨3000, 3000⟩ text)
        (caretIndex (Document.parse ⟨3000, 3000⟩ text).stream) {}).rules,
      candidate.rule = .symbolicAliasName ∧ candidate.start = 4 ∧
        ¬ ∃ rule ∈ creatingRules, rule ∈ candidate.enclosing := by
  have dotted : DottedName name := by
    rcases List.mem_pair.mp among with rfl | rfl
    · exact .single .plain
    · exact .dotted .plain (.single .plain)
  have short : ∀ name ∈ shortNames,
      Rule.all.length * (name.length + 3) ≤ (⟨3000, 3000⟩ : Limits).collecting := by decide
  obtain ⟨candidate, member, several, position, outer, behind, within, same, stands⟩ :=
    exists_dropped_alias dotted before (short name among)
  obtain ⟨rfl, known⟩ := place_of_dropped_alias among within stands
  obtain ⟨token, found, index⟩ := Option.map_eq_some_iff.mp third
  refine ⟨candidate, member, several, ?_, by rw [same]; exact known⟩
  rw [same, Caret.ruleAt, found, Option.map_some, Option.getD_some, index]
  rfl

/-! ## What is offered -/

theorem ruleItems_alias (several : candidate.rule = .symbolicAliasName) (catalog : Catalog) :
    ruleItems [candidate] catalog tokens = (classifyAlias candidate catalog tokens).items := by
  simp [ruleItems, classify, several, nameRules]

/-- Where no blank is behind the first part, and no command around it creates an alias or a
database, the names of aliases are among those offered. -/
theorem aliasNames_offered (several : candidate.rule = .symbolicAliasName)
    (follows : ¬ blankFollows tokens candidate.start)
    (known : ¬ ∃ rule ∈ creatingRules, rule ∈ candidate.enclosing) (catalog : Catalog) :
    items catalog.aliasNames .value ⊆ ruleItems [candidate] catalog tokens := by
  have creating : ¬ candidate.enclosing.any creatingRules.contains := by
    simpa [and_comm] using known
  rw [ruleItems_alias several, classifyAlias, if_neg follows, if_neg creating]
  split
  · exact List.Subset.refl _
  · simp [Classification.items, items]

/-- Whether names are offered for an alias is decided by the token behind its first part and by the
commands around it. -/
theorem no_value_iff (several : candidate.rule = .symbolicAliasName) :
    (∀ catalog, ∀ item ∈ ruleItems [candidate] catalog tokens, item.kind ≠ .value) ↔
      blankFollows tokens candidate.start ∨
        ∃ rule ∈ creatingRules, rule ∈ candidate.enclosing := by
  constructor
  · intro none
    by_contra offers
    obtain ⟨follows, known⟩ := not_or.mp offers
    have offered := aliasNames_offered several follows known { aliasNames := [[]] }
    exact none _ ⟨[], .value⟩ (offered (List.mem_singleton_self _)) rfl
  · intro finished catalog item member
    rw [ruleItems_alias several, classifyAlias] at member
    rcases finished with follows | ⟨rule, creating, opened⟩
    · rw [if_pos follows] at member
      cases member
    · have among : candidate.enclosing.any creatingRules.contains :=
        List.any_eq_true.mpr ⟨rule, opened, List.contains_iff_mem.mpr creating⟩
      rw [if_pos among] at member
      split at member <;> cases member

/-- When a text ends with a blank, and an alias that starts before the caret ends in a part of a
name, the last visible tokens are the parts of that name, with dots between them. No names are
offered for it, whatever the catalog, exactly where the token directly behind its first part is a
blank, or a command around it creates an alias or a database. -/
theorem alias_finished_iff (text : String) (candidate : RuleCandidate)
    (blank : (Document.parse limits text).stream.body.getLast?.map (·.kind) = some .blank)
    (member : candidate ∈ (candidatesAt limits (Document.parse limits text)
      (caretIndex (Document.parse limits text).stream) {}).rules)
    (several : candidate.rule = .symbolicAliasName)
    (begun : candidate.start < caretIndex (Document.parse limits text).stream)
    (named : ∃ kind ∈ (kindsBefore (Document.parse limits text).stream).getLast?, NamePart kind) :
    ∃ first gap more,
      Spelled (Document.parse limits text).stream candidate.start first gap more ∧
      ((∀ catalog, ∀ item ∈ ruleItems [candidate] catalog
        (Document.parse limits text).stream.toList,
          item.kind ≠ .value) ↔
        gap.kind = .blank ∨ ∃ rule ∈ creatingRules, rule ∈ candidate.enclosing) := by
  obtain ⟨candidates, ran, listed⟩ := candidatesOf_of_mem member
  obtain ⟨first, gap, more, spelled⟩ :=
    exists_spelled blank ran listed several begun (ne_dollar_of_namePart named)
  have follows : blankFollows (Stream.ofText text.toList).toList candidate.start ↔
      gap.kind = .blank := by
    have next : ((first.index : Int) + 1).toNat = first.index + 1 := by omega
    rw [blankFollows, spelled.starts, next, getElem?_of_adjoining spelled.adjoins]
    simp
  refine ⟨first, gap, more, spelled, ?_⟩
  rw [no_value_iff several]
  exact or_congr_left follows

/-- Directly behind the blank after a name of one part no names are offered for it. -/
theorem single_name_finished :
    ∃ candidate ∈ (candidatesAt ⟨3000, 3000⟩ (Document.parse ⟨3000, 3000⟩ "DROP ALIAS foo ")
        (caretIndex (Document.parse ⟨3000, 3000⟩ "DROP ALIAS foo ").stream) {}).rules,
      candidate.rule = .symbolicAliasName ∧
      candidate.start < caretIndex (Document.parse ⟨3000, 3000⟩ "DROP ALIAS foo ").stream ∧
      ∀ catalog, ∀ item ∈ ruleItems [candidate] catalog
        (Document.parse ⟨3000, 3000⟩ "DROP ALIAS foo ").stream.toList, item.kind ≠ .value := by
  have stream : (Document.parse ⟨3000, 3000⟩ "DROP ALIAS foo ").stream =
      Stream.ofText "DROP ALIAS foo ".toList := rfl
  have before : kindsBefore (Stream.ofText "DROP ALIAS foo ".toList) = dropping [.plainName] := by
    decide +kernel
  obtain ⟨candidate, member, several, start, -⟩ :=
    exists_short_name (List.mem_cons_self ..) before (by decide +kernel)
  have begun : candidate.start <
      caretIndex (Document.parse ⟨3000, 3000⟩ "DROP ALIAS foo ").stream := by
    rw [start, stream]
    decide +kernel
  obtain ⟨first, gap, more, spelled, finished⟩ :=
    alias_finished_iff "DROP ALIAS foo " candidate (by rw [stream]; decide +kernel) member several
      begun (by rw [stream, before]; exact ⟨.plainName, rfl, .plain⟩)
  have here : first.index = 4 := by
    have starts := spelled.starts
    omega
  have next : (Stream.ofText "DROP ALIAS foo ".toList).toList[first.index + 1]? = some gap :=
    getElem?_of_adjoining spelled.adjoins
  have blank : (Stream.ofText "DROP ALIAS foo ".toList).toList[5]?.map (·.kind) = some .blank := by
    decide +kernel
  rw [here] at next
  rw [next] at blank
  exact ⟨candidate, member, several, begun, finished.mpr (.inl (Option.some.inj blank))⟩

/-- Directly behind the blank after a dotted name the names of aliases are offered for it. -/
theorem dotted_name_offered :
    ∃ candidate ∈ (candidatesAt ⟨3000, 3000⟩ (Document.parse ⟨3000, 3000⟩ "DROP ALIAS a.b ")
        (caretIndex (Document.parse ⟨3000, 3000⟩ "DROP ALIAS a.b ").stream) {}).rules,
      (Document.parse ⟨3000, 3000⟩ "DROP ALIAS a.b ").stream.body.getLast?.map (·.kind) =
        some .blank ∧
      candidate.rule = .symbolicAliasName ∧
      candidate.start < caretIndex (Document.parse ⟨3000, 3000⟩ "DROP ALIAS a.b ").stream ∧
      (∃ kind ∈ (kindsBefore (Document.parse ⟨3000, 3000⟩ "DROP ALIAS a.b ").stream).getLast?,
        NamePart kind) ∧
      ∃ item ∈ ruleItems [candidate] { aliasNames := [.ofString "m"] }
        (Document.parse ⟨3000, 3000⟩ "DROP ALIAS a.b ").stream.toList, item.kind = .value := by
  have stream : (Document.parse ⟨3000, 3000⟩ "DROP ALIAS a.b ").stream =
      Stream.ofText "DROP ALIAS a.b ".toList := rfl
  have before : kindsBefore (Stream.ofText "DROP ALIAS a.b ".toList) =
      dropping [.plainName, .symbol .dot, .plainName] := by decide +kernel
  obtain ⟨candidate, member, several, start, known⟩ :=
    exists_short_name (List.mem_cons_of_mem _ (List.mem_cons_self ..)) before (by decide +kernel)
  have follows :
      ¬ blankFollows (Stream.ofText "DROP ALIAS a.b ".toList).toList candidate.start := by
    rw [start]
    decide +kernel
  refine ⟨candidate, member, ?_, several, ?_, ?_, ⟨.ofString "m", .value⟩, ?_, rfl⟩
  · rw [stream]
    decide +kernel
  · rw [start, stream]
    decide +kernel
  · rw [stream, before]
    exact ⟨.plainName, rfl, .plain⟩
  · exact aliasNames_offered several follows known _ (List.mem_singleton_self _)

end CypherAssist.Completion
