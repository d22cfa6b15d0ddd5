import QuantumScript.Proofs.Printing.Blocks
import QuantumScript.Proofs.Printing.Compounds
import QuantumScript.Proofs.Printing.Texts
/-!
# Printed programs

A printed program is read back without an error, as the tree of its print.
-/

namespace QuantumScript

namespace Syntax

open Production

/-- How the print of a piece of a program is read, by the sort of the piece. -/
def Readable : Segment → Print → Prop
  | .statement, print => Stated print
  | .statements, print => ∃ prints, print = Print.concat prints ∧ ∀ item ∈ prints, Stated item
  | .block, print => Suite print
  | .branches, print => Trailing .elifWord (whileAt [.keyword .elifWord] elifClause) print
  | .otherwise, print => Trailing .elseWord (.call .elseClause) print
  | .handlers, print => Trailing .exceptWord (whileAt [.keyword .exceptWord] exceptClause) print
  | .cleanup, print => Trailing .finallyWord (whenAt [.keyword .finallyWord] finallyClause) print

variable {segment : Segment} {rest : List Token}

private theorem readable_statements {first others : Print} (hfirst : Stated first)
    (hothers : Readable .statements others) :
    ∃ prints, first ++ others = Print.concat prints ∧ ∀ item ∈ prints, Stated item := by
  obtain ⟨prints, rfl, hprints⟩ := hothers
  refine ⟨first :: prints, rfl, ?_⟩
  intro item hmem
  rcases List.mem_cons.mp hmem with rfl | hmem
  · exact hfirst
  · exact hprints item hmem

namespace Code

variable (style : Style)

private theorem readable (code : Code segment) : Readable segment (code.print style) := by
  induction code with
  | simple content => exact stated_simple style.ending.text content.simply
  | function decorators name parameters result body ih =>
    exact stated_function style decorators name parameters result ih
  | classDefinition decorators name bases body ih => exact stated_class style decorators name bases ih
  | choice condition body branches otherwise ihbody ihbranches ihotherwise =>
    exact stated_if condition ihbody ihbranches ihotherwise
  | repeated condition body otherwise ihbody ihotherwise =>
    exact stated_while condition ihbody ihotherwise
  | each targets iterable body otherwise ihbody ihotherwise =>
    exact stated_for (Phrase.proper targets) iterable ihbody ihotherwise
  | entering first others body ih => exact stated_with first others ih
  | attempt body caught handler handlers otherwise cleanup ihbody ihhandler ihhandlers ihotherwise
      ihcleanup =>
    exact stated_try caught ihbody ihhandler ihhandlers ihotherwise ihcleanup
  | assured body cleanup ihbody ihcleanup => exact stated_finally ihbody ihcleanup
  | noStatements => exact ⟨[], rfl, nofun⟩
  | statements first others ihfirst ihothers => exact readable_statements ihfirst ihothers
  | block extra first others ihfirst ihothers =>
    obtain ⟨prints, heq, hprints⟩ := readable_statements ihfirst ihothers
    have hsuite := suite_statements style.ending.text hprints
    rw [← heq] at hsuite
    exact hsuite
  | noBranches => exact .noClauses
  | branches condition body others ihbody ihothers =>
    exact .clauses (fun _ => rfl) (takes_elif condition ihbody) ihothers
  | noOtherwise => exact .call .noClause
  | otherwise body ih => exact trailing_else ih
  | noHandlers => exact .noClauses
  | handlers caught body others ihbody ihothers =>
    exact .clauses (fun _ => rfl) (takes_except caught ihbody) ihothers
  | noCleanup => exact .noClause
  | cleanup body ih => exact .clause (fun _ => rfl) (takes_finally ih)

end Code

section Flaws

/-- Nothing is wrong with the tokens. -/
def Flawless (words : List Token) : Prop := ∀ token ∈ words, token.flaw = none

theorem Flawless.append {words more : List Token} (hwords : Flawless words) (hmore : Flawless more) :
    Flawless (words ++ more) := List.forall_mem_append.mpr ⟨hwords, hmore⟩

theorem Flawless.token (token : Token) (h : token.flaw = none) : Flawless [token] := by
  intro other hmem
  rw [List.mem_singleton.mp hmem]
  exact h

theorem Sound.flawless {words : List Token} (h : Sound words) : Flawless words :=
  fun token hmem => (h.plain token hmem).flaw

theorem Flawless.block {body : Print} (h : Flawless body.words) :
    Flawless (Print.block body).words :=
  Flawless.append (Flawless.token (.mark .colon) rfl) h

end Flaws

namespace Style

variable (style : Style) {print : Print}

/-- The line can be cut into its tokens again, and ends as all lines do. -/
structure Written (line : Line) : Prop where
  sound : line.Sound
  ending : line.ending = style.ending.text

private theorem written_line (width : Nat) (hwords : print.words ≠ []) (hsound : Sound print.words) :
    style.Written (style.line width print) :=
  ⟨⟨style.blank width, hwords, hsound.plain, hsound.balanced 0⟩, rfl⟩

private theorem written_head (width : Nat) (hsound : Sound print.words) :
    style.Written (style.head width print) := by
  have hcolon : Sound (print ++ .mark .colon).words :=
    hsound.append (Sound.mark rfl rfl Sound.nil)
  exact style.written_line width (List.append_ne_nil_of_right_ne_nil _ (List.cons_ne_nil _ _)) hcolon

theorem isBreak (style : Style) : Line.IsBreak style.ending.text := by
  cases style.ending with
  | lineFeed => exact Or.inl rfl
  | both => exact Or.inr rfl

theorem ended {lines : List Line} (h : ∀ line ∈ lines, style.Written line) : Line.Ended lines := by
  induction lines with
  | nil => trivial
  | cons line lines ih =>
    have hline : Line.IsBreak line.ending := by
      rw [(h line (by simp)).ending]
      exact style.isBreak
    have hothers := ih fun other hmem => h other (by simp [hmem])
    cases lines with
    | nil => exact Or.inr hline
    | cons next lines => exact ⟨hline, hothers⟩

end Style

namespace Code

/-- The lines of a piece are as they should be, and no token of the print has a flaw. -/
structure Neat (style : Style) (code : Code segment) : Prop where
  lines : ∀ width, ∀ line ∈ code.lines style width, style.Written line
  words : Flawless (code.print style).words

variable (style : Style)

private theorem neat_decorators (decorators : List Expression) :
    (∀ width, ∀ line ∈ decorators.map (fun value => style.line width (.mark .at ++ value.tight)),
      style.Written line) ∧ Flawless (Print.concat (decorators.map (.decorator style))).words := by
  refine ⟨?_, ?_⟩
  · intro width line hmem
    obtain ⟨value, _, rfl⟩ := List.mem_map.mp hmem
    exact style.written_line width (List.cons_ne_nil _ _) (Sound.mark rfl rfl value.fits_tight.sound)
  · induction decorators with
    | nil => exact List.forall_mem_nil _
    | cons value decorators ih =>
      have hvalue : Sound (Print.mark .at ++ value.tight).words :=
        Sound.mark rfl rfl value.fits_tight.sound
      have hline := hvalue.flawless.append (Flawless.token style.lineBreak rfl)
      simpa [Print.concat, Print.decorator, Print.node, Print.leaf] using hline.append ih

private theorem sound_definition (keyword : Keyword) (name : Name) (print : Print)
    (h : Sound print.words) : Sound (Print.word keyword ++ (.name name ++ print)).words :=
  Sound.word keyword ((fits_name name).sound.append h)

/-- The induction is on the piece. -/
private theorem neat (code : Code segment) : Neat style code := by
  induction code with
  | simple content =>
    have hsound := content.simply.sound
    have hwords := content.simply.nonempty (by decide)
    refine ⟨fun width => ?_, hsound.flawless.append (Flawless.token style.lineBreak rfl)⟩
    simpa [lines] using style.written_line width hwords hsound
  | function decorators name parameters result body ih =>
    have hdecorators := neat_decorators style decorators
    have hhead := sound_definition .defWord name (.parameters parameters ++ .result result)
      ((sound_parameters parameters).append (sound_result result))
    refine ⟨fun width => ?_, hdecorators.2.append ?_⟩
    · simp only [lines, List.forall_mem_append, List.forall_mem_cons]
      exact ⟨hdecorators.1 width, style.written_head width hhead, ih.lines width⟩
    · have hwords := hhead.flawless.append (Flawless.block ih.words)
      simpa using hwords
  | classDefinition decorators name bases body ih =>
    have hdecorators := neat_decorators style decorators
    have hhead := sound_definition .classWord name (.bases bases) (sound_bases bases)
    refine ⟨fun width => ?_, hdecorators.2.append ?_⟩
    · simp only [lines, List.forall_mem_append, List.forall_mem_cons]
      exact ⟨hdecorators.1 width, style.written_head width hhead, ih.lines width⟩
    · have hwords := hhead.flawless.append (Flawless.block ih.words)
      simpa using hwords
  | choice condition body branches otherwise ihbody ihbranches ihotherwise =>
    have hhead := Sound.word .ifWord condition.fits_tight.sound
    refine ⟨fun width => ?_, ?_⟩
    · simp only [lines, List.forall_mem_append, List.forall_mem_cons]
      exact ⟨style.written_head width hhead, ihbody.lines width, ihbranches.lines width,
        ihotherwise.lines width⟩
    · have hwords := (hhead.flawless.append (Flawless.block ihbody.words)).append
        (ihbranches.words.append ihotherwise.words)
      simpa [print, Print.node, Print.word, Print.leaf] using hwords
  | repeated condition body otherwise ihbody ihotherwise =>
    have hhead := Sound.word .whileWord condition.fits_tight.sound
    refine ⟨fun width => ?_, ?_⟩
    · simp only [lines, List.forall_mem_append, List.forall_mem_cons]
      exact ⟨style.written_head width hhead, ihbody.lines width, ihotherwise.lines width⟩
    · have hwords := (hhead.flawless.append (Flawless.block ihbody.words)).append ihotherwise.words
      simpa [print, Print.node, Print.word, Print.leaf] using hwords
  | each targets iterable body otherwise ihbody ihotherwise =>
    have htargets : Row .target targets.print := Phrase.proper targets
    have hhead := Sound.word .forWord
      (htargets.sound.append (Sound.word .inWord iterable.fits_loose.sound))
    refine ⟨fun width => ?_, ?_⟩
    · simp only [lines, List.forall_mem_append, List.forall_mem_cons]
      exact ⟨style.written_head width hhead, ihbody.lines width, ihotherwise.lines width⟩
    · have hwords := (hhead.flawless.append (Flawless.block ihbody.words)).append ihotherwise.words
      simpa [print, Print.node, Print.word, Print.leaf] using hwords
  | entering first others body ih =>
    have hhead := Sound.word .withWord (sound_entering (first :: others))
    refine ⟨fun width => ?_, ?_⟩
    · simp only [lines, List.forall_mem_cons]
      exact ⟨style.written_head width hhead, ih.lines width⟩
    · have hwords := hhead.flawless.append (Flawless.block ih.words)
      simpa [print, Print.node, Print.word, Print.leaf] using hwords
  | attempt body caught handler handlers otherwise cleanup ihbody ihhandler ihhandlers ihotherwise
      ihcleanup =>
    have hexcept := Sound.word .exceptWord (sound_caught caught)
    have htry := Sound.word .tryWord Sound.nil
    refine ⟨fun width => ?_, ?_⟩
    · simp only [lines, List.forall_mem_append, List.forall_mem_cons]
      exact ⟨style.written_head width htry, ihbody.lines width, style.written_head width hexcept,
        ihhandler.lines width, ihhandlers.lines width, ihotherwise.lines width,
        ihcleanup.lines width⟩
    · have hhandler := hexcept.flawless.append (Flawless.block ihhandler.words)
      have hwords := (htry.flawless.append (Flawless.block ihbody.words)).append
        ((hhandler.append ihhandlers.words).append (ihotherwise.words.append ihcleanup.words))
      simpa [print, Print.node, Print.word, Print.leaf] using hwords
  | assured body cleanup ihbody ihcleanup =>
    have htry := Sound.word .tryWord Sound.nil
    have hfinally := Sound.word .finallyWord Sound.nil
    refine ⟨fun width => ?_, ?_⟩
    · simp only [lines, List.forall_mem_append, List.forall_mem_cons]
      exact ⟨style.written_head width htry, ihbody.lines width, style.written_head width hfinally,
        ihcleanup.lines width⟩
    · have hwords := (htry.flawless.append (Flawless.block ihbody.words)).append
        (hfinally.flawless.append (Flawless.block ihcleanup.words))
      simpa [print, Print.node, Print.word, Print.leaf] using hwords
  | noStatements | noBranches | noOtherwise | noHandlers | noCleanup =>
    exact ⟨fun _ => List.forall_mem_nil _, List.forall_mem_nil _⟩
  | statements first others ihfirst ihothers =>
    refine ⟨fun width => ?_, ihfirst.words.append ihothers.words⟩
    exact List.forall_mem_append.mpr ⟨ihfirst.lines width, ihothers.lines width⟩
  | block extra first others ihfirst ihothers =>
    refine ⟨fun width => ?_, ?_⟩
    · exact List.forall_mem_append.mpr ⟨ihfirst.lines _, ihothers.lines _⟩
    · have hopen := (Flawless.token style.lineBreak rfl).append
        (Flawless.token .indent rfl)
      have hwords := hopen.append ((ihfirst.words.append ihothers.words).append
        (Flawless.token .dedent rfl))
      simpa [print, Print.node, Print.leaf] using hwords
  | branches condition body others ihbody ihothers =>
    have hhead := Sound.word .elifWord condition.fits_tight.sound
    refine ⟨fun width => ?_, ?_⟩
    · simp only [lines, List.forall_mem_append, List.forall_mem_cons]
      exact ⟨style.written_head width hhead, ihbody.lines width, ihothers.lines width⟩
    · have hwords := (hhead.flawless.append (Flawless.block ihbody.words)).append ihothers.words
      simpa [print, Print.node, Print.word, Print.leaf] using hwords
  | otherwise body ih =>
    have hhead := Sound.word .elseWord Sound.nil
    refine ⟨fun width => ?_, hhead.flawless.append (Flawless.block ih.words)⟩
    exact List.forall_mem_cons.mpr ⟨style.written_head width hhead, ih.lines width⟩
  | handlers caught body others ihbody ihothers =>
    have hhead := Sound.word .exceptWord (sound_caught caught)
    refine ⟨fun width => ?_, ?_⟩
    · simp only [lines, List.forall_mem_append, List.forall_mem_cons]
      exact ⟨style.written_head width hhead, ihbody.lines width, ihothers.lines width⟩
    · have hwords := (hhead.flawless.append (Flawless.block ihbody.words)).append ihothers.words
      simpa [print, Print.node, Print.word, Print.leaf] using hwords
  | cleanup body ih =>
    have hhead := Sound.word .finallyWord Sound.nil
    refine ⟨fun width => ?_, hhead.flawless.append (Flawless.block ih.words)⟩
    exact List.forall_mem_cons.mpr ⟨style.written_head width hhead, ih.lines width⟩

/-- The text of a program. -/
def text (program : Code .statements) : List Char := (program.lines style 0).flatMap Line.text

end Code

section Files

variable {prints : List Print}

private def fileRound : Production :=
  .cond (next .endOfInput) (.answer false) <|
    .cond (.ask (.at [.dedent, .newline])) .advance (.seq (.call .statement) (.answer true))

private theorem read_file (h : ∀ print ∈ prints, Stated print) :
    file.read grammar ⟨(Print.concat prints).words, [], []⟩ =
      some (true, ⟨[], (Print.concat prints).trees.reverse, []⟩) := by
  have hfile : Takes (.loop fileRound) true (.concat prints) [] := by
    refine takes_statements ?_ (Turns.at_yes rfl (Takes.answered false)) rfl h
    intro print rest hprint htakes
    exact Turns.at_no (hprint.not_at (by decide) rest)
      (Turns.at_no (hprint.not_at (by decide) rest) (Takes.seq_answer htakes))
  have hread := hfile [] []
  rw [List.append_nil, List.append_nil, List.append_nil] at hread
  exact hread

/-- Where statements make up the significant tokens of a text, it is read as the trees of the
statements. -/
theorem parse_statements {source : List Char} (h : ∀ print ∈ prints, Stated print)
    (htokens : Token.significant (Token.ofText source) = (Print.concat prints).words)
    (hflawless : Flawless (Print.concat prints).words) :
    (parse source).errors = [] ∧
      (parse source).tree.bare = .node .file (Print.concat prints).trees := by
  have hread := read_file h
  rw [← htokens] at hread hflawless
  have hparse := parse_of_read hread hflawless
  rwa [List.reverse_reverse] at hparse

private theorem significant_ofText {lines : List Line} (h : ∀ line ∈ lines, line.Sound)
    (hended : Line.Ended lines) :
    Token.significant (Token.ofText (lines.flatMap Line.text)) = Line.allTokens [] lines := by
  rw [Token.ofText, Layout.tokens_eq_placeAll]
  exact Line.significant_lines h hended []

end Files

/-- Printing a program and parsing the text gives the tree of the program back, without an error. -/
theorem parse_program (style : Style) (program : Code .statements) :
    (parse (program.text style)).errors = [] ∧
      (parse (program.text style)).tree.bare = .node .file (program.print style).trees := by
  obtain ⟨prints, heq, hprints⟩ := program.readable style
  have hneat := program.neat style
  have hwritten := hneat.lines 0
  have htokens := significant_ofText (fun line hmem => (hwritten line hmem).sound)
    (style.ended hwritten)
  have hnothing : Line.Within [] [] := nofun
  have hwords : Line.allTokens [] (program.lines style 0 ++ []) =
      (program.print style).words ++ [] := Code.allTokens_lines program [] hnothing
  rw [List.append_nil, List.append_nil] at hwords
  rw [hwords] at htokens
  have hflawless := hneat.words
  rw [heq] at htokens hflawless ⊢
  exact parse_statements hprints htokens hflawless

/-- The end of the last line, which may lack its line break. -/
def Ending.last : Option Ending → List Char
  | none => []
  | some ending => ending.text

/-- No expression binds more loosely than a list without parentheses. -/
theorem Phrase.loose_eq (value : Expression) : value.loose = value.print := by
  have hrank := Rule.rank_le value.rule (Phrase.proper value).level
  exact if_neg (Nat.not_lt.mpr hrank)

/-- Printing an expression on a line and parsing the line gives the tree of the expression back,
without an error. -/
theorem parse_expression (value : Expression) (ending : Option Ending) :
    ∃ tree, value.print.trees = [tree] ∧
      (parse (Token.line value.print.words ++ Ending.last ending)).errors = [] ∧
      (parse (Token.line value.print.words ++ Ending.last ending)).tree.bare =
        .node .file [.node .expressionStatement [tree], .token .newline (Ending.last ending)] := by
  obtain ⟨tree, htree, _⟩ := value.fits_loose.tree
  have hsound := value.fits_loose.sound
  have hnonempty := value.fits_loose.opens.nonempty
  rw [value.loose_eq] at htree hsound hnonempty
  have hstated : ∀ print ∈ [(Simple.expression value).print ++ .leaf (.lineBreak (Ending.last ending))],
      Stated print := by
    intro print hmem
    rw [List.mem_singleton.mp hmem]
    exact stated_simple _ (Simple.expression value).simply
  have hended : Line.Ended [⟨[], value.print.words, Ending.last ending⟩] := by
    cases ending with
    | none => exact Or.inl rfl
    | some ending =>
      cases ending with
      | lineFeed => exact Or.inr (Or.inl rfl)
      | both => exact Or.inr (Or.inr rfl)
  have hline : ∀ line ∈ [Line.mk [] value.print.words (Ending.last ending)], line.Sound := by
    intro line hmem
    rw [List.mem_singleton.mp hmem]
    exact ⟨nofun, hnonempty, hsound.plain, hsound.balanced 0⟩
  have hprint : Print.concat [(Simple.expression value).print ++
      .leaf (.lineBreak (Ending.last ending))] =
        ⟨value.print.words ++ [.lineBreak (Ending.last ending)],
          [.node .expressionStatement [tree], .token .newline (Ending.last ending)]⟩ := by
    rw [Print.concat, Print.concat, Print.append_empty, Simple.print, value.loose_eq, Print.node,
      htree]
    rfl
  have htokens := significant_ofText hline hended
  rw [List.flatMap_cons, List.flatMap_nil, List.append_nil] at htokens
  have hflawless := hsound.flawless.append (Flawless.token (.lineBreak (Ending.last ending)) rfl)
  have hparse := parse_statements hstated (by rw [hprint]; exact htokens)
    (by rw [hprint]; exact hflawless)
  rw [hprint] at hparse
  exact ⟨tree, htree, hparse.1, hparse.2⟩

end Syntax

end QuantumScript
