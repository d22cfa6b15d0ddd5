import QuantumScript.Proofs.Printing.Headers
/-!
# Compound statements

How the statements that hold blocks are read back, given how the blocks are.
-/

namespace QuantumScript

namespace Syntax

open Production

/-- Tokens that start a statement. -/
def statementFirst : List TokenKind :=
  simpleFirst.append
    [.keyword .defWord, .keyword .classWord, .keyword .ifWord, .keyword .whileWord,
      .keyword .forWord, .keyword .withWord, .keyword .tryWord, .symbol .at]

/-- Tokens that go on with a compound statement after one of its blocks. -/
def clauseFirst : List TokenKind :=
  [.keyword .elifWord, .keyword .elseWord, .keyword .exceptWord, .keyword .finallyWord]

/-- The print is read as a statement where no further clause follows. -/
structure Stated (print : Print) : Prop where
  starts : statementFirst.contains (Token.nextKind print.words) = true
  takes : ∀ rest, clauseFirst.contains (Token.nextKind rest) = false →
    Takes (.call .statement) true print rest

/-- The print is read as the block of a statement. -/
structure Suite (print : Print) : Prop where
  tree : ∃ children, print.trees = [.node .suite children]
  takes : ∀ rest, Takes (.call .suite) true print rest

variable {rest more : List Token} {print body : Print} {prints : List Print} {round : Production}
  {answer : Bool}

namespace Stated

theorem nonempty (h : Stated print) : print.words ≠ [] := by
  intro hnil
  have hstarts := h.starts
  rw [hnil] at hstarts
  cases hstarts

theorem not_at {kinds : List TokenKind} (h : Stated print)
    (hkinds : ∀ kind ∈ kinds, kind ∉ statementFirst) (more : List Token) :
    kinds.contains (Token.nextKind (print.words ++ more)) = false := by
  have hstarts := h.starts
  rw [Token.nextKind_append h.nonempty, List.contains_eq_mem, decide_eq_false_iff_not]
  intro hmem
  exact hkinds _ hmem (by simpa using hstarts)

end Stated

section Lines

variable (ending : List Char)

private theorem takes_simpleLine (h : Simply print) (rest : List Token) :
    Takes (.call .simpleLine) true (print ++ .leaf (.lineBreak ending)) rest := by
  have hstatement := h.takes (Token.lineBreak ending :: rest) rfl
  have hend : Takes (.cond (next .endOfInput) (.answer true) (expect .newline)) true
      (.leaf (.lineBreak ending)) rest :=
    Turns.at_no rfl (takes_expect rfl)
  have hsemicolon : Takes (.cond (eat (.symbol .semicolon))
      (.cond (.ask (.at [.newline, .endOfInput])) (.answer false) (.answer true)) (.answer false))
      false .empty (Token.lineBreak ending :: rest) := Turns.eat_no nofun (Takes.answered false)
  exact Turns.call (Takes.seq (Turns.loop_no (Takes.seq_still hstatement hsemicolon)) hend)

/-- A simple statement on a line of its own. -/
theorem stated_simple (h : Simply print) : Stated (print ++ .leaf (.lineBreak ending)) := by
  have hend : .endOfInput ∉ simpleFirst := by decide
  have hnone {kind : TokenKind} (hkind : kind ∉ simpleFirst) (rest : List Token) :
      [kind].contains (Token.nextKind ((print ++ Print.leaf (.lineBreak ending)).words ++ rest)) =
        false := by
    rw [Print.words_append, List.append_assoc]
    exact h.not_at hend (by simpa using hkind) _
  refine ⟨?_, ?_⟩
  · have hstarts := h.starts_append hend [Token.lineBreak ending]
    have hfirst : ∀ kind ∈ simpleFirst, kind ∈ statementFirst := by decide
    rw [List.contains_iff_mem] at hstarts ⊢
    exact hfirst _ hstarts
  · intro rest _
    have hline := takes_simpleLine ending h rest
    apply Turns.call
    iterate 9 refine Turns.at_no (hnone (by decide) rest) ?_
    exact hline

end Lines

section Suites

/-- A loop over statements. The induction is on the statements. -/
theorem takes_statements
    (hround : ∀ print rest, Stated print → Takes (.call .statement) true print rest →
      Takes round true print rest)
    (hstop : Takes round false .empty rest)
    (hrest : clauseFirst.contains (Token.nextKind rest) = false)
    (h : ∀ print ∈ prints, Stated print) :
    Takes (.loop round) true (.concat prints) rest := by
  induction prints with
  | nil => exact Turns.loop_no hstop
  | cons print prints ih =>
    have hprint := h print (by simp)
    have hothers := fun other (hmem : other ∈ prints) => h other (by simp [hmem])
    have hnext : clauseFirst.contains (Token.nextKind ((Print.concat prints).words ++ rest)) =
        false := by
      cases prints with
      | nil => exact hrest
      | cons next prints =>
        rw [Print.concat, Print.words_append, List.append_assoc]
        exact (hothers next (by simp)).not_at (by decide) _
    exact Takes.loop_yes (hround print _ hprint (hprint.takes _ hnext)) hprint.nonempty
      (ih hothers)

private def suiteRound : Production :=
  .cond (.ask (.at [.dedent, .endOfInput])) (.answer false) <|
    .cond (next .newline) (.bump .newline) (.seq (.call .statement) (.answer true))

/-- An indented block. -/
theorem suite_statements (ending : List Char) (h : ∀ print ∈ prints, Stated print) :
    Suite ((Print.leaf (.lineBreak ending) ++ (Print.leaf .indent ++ (Print.concat prints ++
      Print.leaf .dedent))).node .suite) := by
  refine ⟨⟨_, rfl⟩, fun rest => ?_⟩
  have hstatements : Takes (.loop suiteRound) true (.concat prints) (Token.dedent :: rest) := by
    refine takes_statements ?_ (Turns.at_yes rfl (Takes.answered false)) rfl h
    intro print rest hprint htakes
    exact Turns.at_no (hprint.not_at (by decide) rest)
      (Turns.at_no (hprint.not_at (by decide) rest) (Takes.seq_answer htakes))
  have hdedent : Takes (eat .dedent) true (.leaf .dedent) rest := takes_eat rfl
  exact Turns.call (Takes.node
    (Takes.eat_yes rfl (Takes.eat_yes rfl (Takes.seq hstatements hdedent))))

private theorem takes_block (h : Suite body) (rest : List Token) : Takes block true (.block body) rest :=
  Takes.seq (takes_expect_mark .colon _) (h.takes rest)

private theorem takes_conditionAndBlock (condition : Expression) (h : Suite body) (rest : List Token) :
    Takes conditionAndBlock true (condition.tight ++ .block body) rest :=
  Takes.seq (condition.fits_tight.takes _ (Stops.of_next (.symbol .colon) rfl (by decide)))
    (takes_block h rest)

end Suites

/-- The script reads the print as clauses that begin with the keyword, or as none of them. -/
structure Trailing (keyword : Keyword) (script : Production) (print : Print) : Prop where
  follows : ∀ rest, Token.nextKind (print.words ++ rest) = Token.nextKind rest ∨
    Token.nextKind (print.words ++ rest) = .keyword keyword
  takes : ∀ rest, Token.nextKind rest ≠ .keyword keyword → ∃ answer, Takes script answer print rest

namespace Trailing

variable {keyword : Keyword} {item script : Production} {first others : Print}

private theorem ne {kind : TokenKind} (h : Trailing keyword script print) (hkind : .keyword keyword ≠ kind)
    (hrest : Token.nextKind rest ≠ kind) : Token.nextKind (print.words ++ rest) ≠ kind := by
  rcases h.follows rest with heq | heq
  · rw [heq]
    exact hrest
  · rw [heq]
    exact hkind

theorem call {rule : Rule} (h : Trailing keyword (grammar rule) print) :
    Trailing keyword (.call rule) print := by
  refine ⟨h.follows, fun rest hrest => ?_⟩
  obtain ⟨answer, htakes⟩ := h.takes rest hrest
  exact ⟨answer, Turns.call htakes⟩

theorem noClause : Trailing keyword (whenAt [.keyword keyword] item) .empty :=
  ⟨fun _ => Or.inl rfl, fun rest hrest => ⟨false, takes_whenAt_none (by simpa using hrest)⟩⟩

theorem clause (hfirst : ∀ rest, Token.nextKind (first.words ++ rest) = .keyword keyword)
    (h : ∀ rest, Takes item true first rest) :
    Trailing keyword (whenAt [.keyword keyword] item) first := by
  refine ⟨fun rest => Or.inr (hfirst rest), fun rest _ => ⟨true, Turns.at_yes ?_ (h rest)⟩⟩
  simp [hfirst]

theorem noClauses : Trailing keyword (whileAt [.keyword keyword] item) .empty := by
  refine ⟨fun _ => Or.inl rfl, fun rest hrest => ⟨true, Turns.loop_no (takes_whenAt_none ?_)⟩⟩
  simpa using hrest

theorem clauses (hfirst : ∀ rest, Token.nextKind (first.words ++ rest) = .keyword keyword)
    (h : ∀ rest, Takes item true first rest)
    (hothers : Trailing keyword (whileAt [.keyword keyword] item) others) :
    Trailing keyword (whileAt [.keyword keyword] item) (first ++ others) := by
  have hwords : first.words ≠ [] := by
    intro hnil
    have hnext := hfirst []
    rw [hnil] at hnext
    cases hnext
  refine ⟨fun rest => Or.inr ?_, fun rest hrest => ?_⟩
  · rw [Print.words_append, List.append_assoc]
    exact hfirst _
  · obtain ⟨answer, hmore⟩ := hothers.takes rest hrest
    refine ⟨answer, Takes.loop_yes (Turns.at_yes ?_ (Takes.seq_answer (h _))) hwords hmore⟩
    simp [hfirst]

end Trailing

/-- The script of an `elif` clause. -/
def elifClause : Production :=
  .node (.always .elifClause) (.seq (.bump (.keyword .elifWord)) conditionAndBlock)

section Clauses

theorem takes_elif (condition : Expression) (hbody : Suite body) (rest : List Token) :
    Takes elifClause true
      ((Print.word .elifWord ++ (condition.tight ++ .block body)).node .elifClause) rest :=
  Takes.node (Takes.seq (takes_word .elifWord _) (takes_conditionAndBlock condition hbody rest))

theorem trailing_else (hbody : Suite body) :
    Trailing .elseWord (.call .elseClause)
      ((Print.word .elseWord ++ .block body).node .elseClause) :=
  .call (.clause (fun _ => rfl) fun rest =>
    Takes.node (Takes.seq (takes_word .elseWord _) (takes_block hbody rest)))

theorem takes_except (caught : Option Caught) (hbody : Suite body) (rest : List Token) :
    Takes exceptClause true
      ((Print.word .exceptWord ++ (.caught caught ++ .block body)).node .exceptClause) rest := by
  obtain ⟨answer, hcaught⟩ := takes_caught caught (body.words ++ rest)
  exact Takes.node (Takes.seq (takes_word .exceptWord _)
    (Takes.seq hcaught (takes_block hbody rest)))

theorem takes_finally (hbody : Suite body) (rest : List Token) :
    Takes finallyClause true ((Print.word .finallyWord ++ .block body).node .finallyClause) rest :=
  Takes.node (Takes.seq (takes_word .finallyWord _) (takes_block hbody rest))

end Clauses

section Forms

/-- The rule of a statement that begins with the keyword. -/
private def keywordRule : Keyword → Option Rule
  | .defWord => some .function
  | .classWord => some .classDefinition
  | .ifWord => some .ifStatement
  | .whileWord => some .whileStatement
  | .forWord => some .forStatement
  | .withWord => some .withStatement
  | .tryWord => some .tryStatement
  | _ => none

private theorem takes_compound {keyword : Keyword} {rule : Rule}
    (hrule : keywordRule keyword = some rule)
    (hnext : Token.nextKind (print.words ++ rest) = .keyword keyword)
    (h : Takes (.call rule) true print rest) : Takes (.call .statement) true print rest := by
  apply Turns.call
  cases keyword with
  | defWord | classWord | ifWord | whileWord | forWord | withWord | tryWord =>
    cases hrule
    repeat
      first
      | exact Turns.at_yes (by rw [hnext]; rfl) h
      | refine Turns.at_no (by rw [hnext]; rfl) ?_
  | _ => cases hrule

private theorem stated_keyword (keyword : Keyword) {rule : Rule} {kind : NodeKind}
    {words : List Token} (hrule : keywordRule keyword = some rule)
    (hgrammar : grammar rule = .seq (.demand [.keyword keyword]) (.node (.always kind) round))
    (hwords : print.words = Token.word keyword :: words)
    (h : ∀ rest, clauseFirst.contains (Token.nextKind rest) = false →
      ∃ answer, Takes round answer print rest) :
    Stated (print.node kind) := by
  have hnext (rest : List Token) : Token.nextKind (print.words ++ rest) = .keyword keyword := by
    rw [hwords]
    rfl
  refine ⟨?_, fun rest hrest => ?_⟩
  · change statementFirst.contains (Token.nextKind print.words) = true
    rw [hwords]
    cases keyword with
    | defWord | classWord | ifWord | whileWord | forWord | withWord | tryWord => rfl
    | _ => cases hrule
  · obtain ⟨answer, hbody⟩ := h rest hrest
    refine takes_compound hrule (hnext rest) (Turns.call ?_)
    rw [hgrammar]
    refine Turns.demand ?_ (Takes.node hbody)
    change [TokenKind.keyword keyword].contains (Token.nextKind (print.words ++ rest)) = true
    simp [hnext]

private theorem not_clause {keyword : Keyword} (hkeyword : .keyword keyword ∈ clauseFirst)
    (hrest : clauseFirst.contains (Token.nextKind rest) = false) :
    Token.nextKind rest ≠ .keyword keyword := by
  intro heq
  rw [heq, List.contains_eq_mem, decide_eq_false_iff_not] at hrest
  exact hrest hkeyword

variable {branches otherwise handler handlers cleanup : Print}

theorem stated_if (condition : Expression) (hbody : Suite body)
    (hbranches : Trailing .elifWord (whileAt [.keyword .elifWord] elifClause) branches)
    (hotherwise : Trailing .elseWord (.call .elseClause) otherwise) :
    Stated ((Print.word .ifWord ++ ((condition.tight ++ .block body) ++
      (branches ++ otherwise))).node .ifStatement) := by
  refine stated_keyword .ifWord rfl rfl rfl fun rest hrest => ?_
  obtain ⟨last, helse⟩ := hotherwise.takes rest (not_clause (by decide) hrest)
  have helif : Token.nextKind (otherwise.words ++ rest) ≠ .keyword .elifWord :=
    hotherwise.ne nofun (not_clause (by decide) hrest)
  obtain ⟨_, hmore⟩ := hbranches.takes _ helif
  exact ⟨last, Takes.seq (takes_word .ifWord _)
    (Takes.seq (takes_conditionAndBlock condition hbody _) (Takes.seq hmore helse))⟩

theorem stated_while (condition : Expression) (hbody : Suite body)
    (hotherwise : Trailing .elseWord (.call .elseClause) otherwise) :
    Stated ((Print.word .whileWord ++ ((condition.tight ++ .block body) ++ otherwise)).node
      .whileStatement) := by
  refine stated_keyword .whileWord rfl rfl rfl fun rest hrest => ?_
  obtain ⟨last, helse⟩ := hotherwise.takes rest (not_clause (by decide) hrest)
  exact ⟨last, Takes.seq (takes_word .whileWord _)
    (Takes.seq (takes_conditionAndBlock condition hbody _) helse)⟩

theorem stated_for {targets : Print} (htargets : Row .target targets) (iterable : Expression)
    (hbody : Suite body) (hotherwise : Trailing .elseWord (.call .elseClause) otherwise) :
    Stated ((Print.word .forWord ++ (targets ++ (Print.word .inWord ++ (iterable.loose ++
      (.block body ++ otherwise))))).node .forStatement) := by
  refine stated_keyword .forWord rfl rfl rfl fun rest hrest => ?_
  obtain ⟨last, helse⟩ := hotherwise.takes rest (not_clause (by decide) hrest)
  have hblock : Takes (.seq block (.call .elseClause)) last (.block body ++ otherwise) rest :=
    Takes.seq (takes_block hbody _) helse
  have hcolon : Stops .expressionList ((Print.block body ++ otherwise).words ++ rest) :=
    Stops.of_next (.symbol .colon) rfl (by decide)
  have hiterable := Takes.seq (iterable.fits_loose.takes _ hcolon) hblock
  have hin : RowStops .target ((Print.word .inWord ++ (iterable.loose ++
      (.block body ++ otherwise))).words ++ rest) :=
    ⟨Stops.of_next (.keyword .inWord) rfl (by decide), nofun, rfl⟩
  have hlist : Takes (.call .targetList) true targets _ := Turns.call (htargets.takes _ hin)
  exact ⟨last, Takes.seq (takes_word .forWord _)
    (Takes.seq hlist (Takes.seq (takes_expect_word .inWord _) hiterable))⟩

theorem stated_with (first : Entered) (others : List Entered) (hbody : Suite body) :
    Stated ((Print.word .withWord ++ (.items ((first :: others).map Entered.print) ++
      .block body)).node .withStatement) := by
  refine stated_keyword .withWord rfl rfl rfl fun rest _ => ⟨true, ?_⟩
  exact Takes.seq (takes_word .withWord _)
    (Takes.seq (takes_entering first others _) (takes_block hbody rest))

theorem stated_try (caught : Option Caught) (hbody : Suite body) (hhandler : Suite handler)
    (hhandlers : Trailing .exceptWord (whileAt [.keyword .exceptWord] exceptClause) handlers)
    (hotherwise : Trailing .elseWord (.call .elseClause) otherwise)
    (hcleanup : Trailing .finallyWord (whenAt [.keyword .finallyWord] finallyClause) cleanup) :
    Stated ((Print.word .tryWord ++ (.block body ++
      (((Print.word .exceptWord ++ (.caught caught ++ .block handler)).node .exceptClause ++
        handlers) ++ (otherwise ++ cleanup)))).node .tryStatement) := by
  refine stated_keyword .tryWord rfl rfl rfl fun rest hrest => ?_
  have hfinally : Token.nextKind rest ≠ .keyword .finallyWord := not_clause (by decide) hrest
  have helse : Token.nextKind (cleanup.words ++ rest) ≠ .keyword .elseWord :=
    hcleanup.ne nofun (not_clause (by decide) hrest)
  have hexcept : Token.nextKind ((otherwise ++ cleanup).words ++ rest) ≠ .keyword .exceptWord := by
    rw [Print.words_append, List.append_assoc]
    exact hotherwise.ne nofun (hcleanup.ne nofun (not_clause (by decide) hrest))
  obtain ⟨last, hlast⟩ := hcleanup.takes rest hfinally
  obtain ⟨_, hmiddle⟩ := hotherwise.takes _ helse
  have hclauses : Trailing .exceptWord (whileAt [.keyword .exceptWord] exceptClause)
      ((Print.word .exceptWord ++ (.caught caught ++ .block handler)).node .exceptClause ++
        handlers) :=
    .clauses (fun _ => rfl) (takes_except caught hhandler) hhandlers
  obtain ⟨_, hfirst⟩ := hclauses.takes _ hexcept
  exact ⟨last, Takes.seq (takes_word .tryWord _) (Takes.seq (takes_block hbody _)
    (Turns.at_yes rfl (Takes.seq hfirst (Takes.seq hmiddle hlast))))⟩

theorem stated_finally (hbody : Suite body) (hcleanup : Suite cleanup) :
    Stated ((Print.word .tryWord ++ (.block body ++
      (Print.word .finallyWord ++ .block cleanup).node .finallyClause)).node .tryStatement) := by
  refine stated_keyword .tryWord rfl rfl rfl fun rest _ => ⟨true, ?_⟩
  exact Takes.seq (takes_word .tryWord _) (Takes.seq (takes_block hbody _)
    (Turns.at_no rfl (Turns.at_yes rfl (takes_finally hcleanup rest))))

end Forms

section Definitions

variable (style : Style)

/-- The lines of decorators. The induction is on the decorators. -/
private theorem takes_decorators (decorators : List Expression)
    (hrest : Token.nextKind rest ≠ .symbol .at) :
    Takes (whileAt [.symbol .at] <| .node (.always .decorator) <| steps
      [.bump (.symbol .at), .call .expression, expect .newline]) true
      (.concat (decorators.map (.decorator style))) rest := by
  induction decorators with
  | nil => exact Turns.loop_no (takes_whenAt_none (by simpa using hrest))
  | cons value decorators ih =>
    have hline : Takes (.node (.always .decorator) <| steps
        [.bump (.symbol .at), .call .expression, expect .newline]) true (.decorator style value)
        ((Print.concat (decorators.map (.decorator style))).words ++ rest) := by
      have hvalue := value.fits_tight.takes
        (style.lineBreak :: ((Print.concat (decorators.map (.decorator style))).words ++ rest))
        (Stops.of_next .newline rfl (by decide))
      exact Takes.node (Takes.seq (takes_mark .at _) (Takes.seq hvalue (takes_expect rfl)))
    exact Takes.loop_yes (Turns.at_yes rfl (Takes.seq_answer hline)) (List.cons_ne_nil _ _) ih

private theorem takes_functionBody (name : Name) (parameters : List Parameter)
    (result : Option Expression) (hbody : Suite body) (rest : List Token) :
    Takes functionBody true (.word .defWord ++ (.name name ++ (.parameters parameters ++
      (.result result ++ .block body)))) rest := by
  obtain ⟨_, hresult⟩ := takes_result result (body.words ++ rest)
  have htail := Takes.seq hresult (takes_block hbody rest)
  have hparameters := Takes.seq (takes_parameters parameters _) htail
  exact Takes.seq (takes_word .defWord _) (Takes.seq (takes_nameOr name.kind_name _) hparameters)

private theorem takes_classBody (name : Name) (bases : Option (Phrase (.items .argument)))
    (hbody : Suite body) (rest : List Token) :
    Takes classBody true (.word .classWord ++ (.name name ++ (.bases bases ++ .block body)))
      rest := by
  obtain ⟨_, hbases⟩ := takes_bases bases (body.words ++ rest)
  have htail := Takes.seq hbases (takes_block hbody rest)
  exact Takes.seq (takes_word .classWord _) (Takes.seq (takes_nameOr name.kind_name _) htail)

private theorem stated_plain (keyword : Keyword) {rule : Rule} {kind : NodeKind} {tail : Print}
    (hrule : keywordRule keyword = some rule)
    (hgrammar : grammar rule = .seq (.demand [.keyword keyword]) (.node (.always kind) round))
    (h : ∀ rest, Takes round true (.word keyword ++ tail) rest) :
    Stated ((.word keyword ++ tail).node kind) :=
  stated_keyword keyword hrule hgrammar rfl fun rest _ => ⟨true, h rest⟩

private theorem stated_decorated {kind : NodeKind} (value : Expression)
    (decorators : List Expression) {definition : Print}
    (hnext : ∀ rest, Token.nextKind (definition.words ++ rest) ≠ .symbol .at)
    (hlabel : Label.definition.resolve
      (Print.concat ((value :: decorators).map (.decorator style)) ++ definition).trees = kind)
    (h : ∀ rest, Takes (.cond (next (.keyword .defWord)) functionBody <|
      .cond (next (.keyword .classWord)) classBody (.report .missingDefinition)) true definition
      rest) :
    Stated ((Print.concat ((value :: decorators).map (.decorator style)) ++ definition).node
      kind) := by
  refine ⟨rfl, fun rest _ => ?_⟩
  have hall := Takes.seq (takes_decorators style (value :: decorators) (hnext rest)) (h rest)
  have hdecorated : Takes (.call .decorated) true
      ((Print.concat ((value :: decorators).map (.decorator style)) ++ definition).node kind) rest :=
    Turns.call (Turns.demand rfl (Takes.labelled hlabel hall))
  apply Turns.call
  iterate 7 refine Turns.at_no rfl ?_
  exact Turns.at_yes rfl hdecorated

private theorem any_decorators (keyword : Keyword) (decorators : List Expression) :
    (Print.concat (decorators.map (.decorator style))).trees.any
      (fun tree => tree.tokenKind? = some (.keyword keyword)) = false := by
  induction decorators with
  | nil => rfl
  | cons value decorators ih =>
    rw [List.map_cons, Print.concat, Print.trees_append, List.any_append, ih]
    rfl

private theorem any_bases (keyword : Keyword) (bases : Option (Phrase (.items .argument))) :
    (Print.bases bases).trees.any (fun tree => tree.tokenKind? = some (.keyword keyword)) =
      false := by
  cases bases <;> rfl

theorem stated_function (decorators : List Expression) (name : Name) (parameters : List Parameter)
    (result : Option Expression) (hbody : Suite body) :
    Stated ((Print.concat (decorators.map (.decorator style)) ++ (Print.word .defWord ++
      (.name name ++ (.parameters parameters ++ (.result result ++ .block body))))).node
      .function) := by
  have hfunction := takes_functionBody name parameters result hbody
  cases decorators with
  | nil => exact stated_plain .defWord rfl rfl hfunction
  | cons value decorators =>
    refine stated_decorated style value decorators (fun _ => nofun) ?_
      fun rest => Turns.at_yes rfl (hfunction rest)
    rw [Label.resolve, Print.trees_append, List.any_append, any_decorators]
    rfl

theorem stated_class (decorators : List Expression) (name : Name)
    (bases : Option (Phrase (.items .argument))) (hbody : Suite body) :
    Stated ((Print.concat (decorators.map (.decorator style)) ++ (Print.word .classWord ++
      (.name name ++ (.bases bases ++ .block body)))).node .classDefinition) := by
  have hclass := takes_classBody name bases hbody
  cases decorators with
  | nil => exact stated_plain .classWord rfl rfl hclass
  | cons value decorators =>
    refine stated_decorated style value decorators (fun _ => nofun) ?_
      fun rest => Turns.at_no rfl (Turns.at_yes rfl (hclass rest))
    obtain ⟨children, hchildren⟩ := hbody.tree
    have htail (keyword : Keyword) : (Print.bases bases ++ Print.block body).trees.any
        (fun tree => tree.tokenKind? = some (.keyword keyword)) = false := by
      rw [Print.trees_append, List.any_append, any_bases, Print.block, Print.trees_append, hchildren]
      rfl
    have hdef : (Print.concat ((value :: decorators).map (.decorator style)) ++
        (Print.word .classWord ++ (.name name ++ (.bases bases ++ .block body)))).trees.any
          (fun tree => tree.tokenKind? = some (.keyword .defWord)) = false := by
      rw [Print.trees_append, List.any_append, any_decorators]
      exact htail .defWord
    rw [Label.resolve, hdef, Print.trees_append, List.any_append, any_decorators]
    rfl

end Definitions

end Syntax

end QuantumScript
