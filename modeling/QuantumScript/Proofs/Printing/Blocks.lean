import QuantumScript.Proofs.Printing.Programs
/-!
# Blocks of lines

The layout of the lines of a program has the tokens of its print: what is indented opens and closes the
blocks of the program, and nothing else.
-/

namespace QuantumScript

namespace Syntax

namespace Layout

theorem reindent_level (blocks : List Nat) : reindent (level blocks) blocks = ([], blocks) := by
  rw [reindent, if_neg (Nat.lt_irrefl _)]
  cases blocks with
  | nil => rfl
  | cons block blocks =>
    have hlevel : level (block :: blocks) = block := rfl
    rw [hlevel, unindent, if_neg (Nat.lt_irrefl _), if_pos rfl]

private theorem reindent_open {width : Nat} {blocks : List Nat} (h : level blocks < width) :
    reindent width blocks = ([Token.indent], width :: blocks) := if_pos h

private theorem reindent_close {width block : Nat} {blocks : List Nat} (hwidth : width ≤ level blocks)
    (hblock : level blocks < block) :
    reindent width (block :: blocks) =
      (Token.dedent :: (reindent width blocks).1, (reindent width blocks).2) := by
  have hless : width < block := Nat.lt_of_le_of_lt hwidth hblock
  have hlevel : level (block :: blocks) = block := rfl
  rw [reindent, hlevel, if_neg (by omega), unindent, if_pos hless, reindent,
    if_neg (Nat.not_lt.mpr hwidth)]

end Layout

namespace Line

variable {blocks : List Nat} {width : Nat} {more : List Line}

/-- The first of the lines, if there is one, does not go beyond the innermost block. -/
def Within (blocks : List Nat) (lines : List Line) : Prop :=
  ∀ line ∈ lines.head?, line.width ≤ Layout.level blocks

private theorem allTokens_close (h : Within blocks more) (hwidth : Layout.level blocks < width) :
    allTokens (width :: blocks) more = Token.dedent :: allTokens blocks more := by
  cases more with
  | nil => rfl
  | cons line more =>
    have hline : line.width ≤ Layout.level blocks := h line rfl
    rw [allTokens, allTokens, Layout.reindent_close hline hwidth]
    rfl

end Line

namespace Style

variable (style : Style) {blocks : List Nat} {width : Nat} (print : Print) (more : List Line)

private theorem width_line : (style.line width print).width = width := style.blankWidth_margin width

private theorem allTokens_line :
    Line.allTokens blocks (style.line (Layout.level blocks) print :: more) =
      print.words ++ style.lineBreak :: Line.allTokens blocks more := by
  rw [Line.allTokens, width_line, Layout.reindent_level]
  rfl

private theorem allTokens_open (h : Layout.level blocks < width) :
    Line.allTokens blocks (style.line width print :: more) =
      Token.indent :: Line.allTokens (width :: blocks) (style.line width print :: more) := by
  have hlevel : Layout.level (width :: blocks) = width := rfl
  have hsame : Layout.reindent width (width :: blocks) = ([], width :: blocks) :=
    Layout.reindent_level (width :: blocks)
  rw [Line.allTokens, Line.allTokens, width_line, Layout.reindent_open h, hsame]
  rfl

end Style

namespace Code

variable (style : Style) {segment : Segment}

private theorem lines_statement (width : Nat) (code : Code .statement) :
    ∃ print more, code.lines style width = style.line width print :: more := by
  cases code with
  | function decorators name parameters result body =>
    cases decorators with
    | nil => exact ⟨_, _, rfl⟩
    | cons decorator decorators => exact ⟨_, _, rfl⟩
  | classDefinition decorators name bases body =>
    cases decorators with
    | nil => exact ⟨_, _, rfl⟩
    | cons decorator decorators => exact ⟨_, _, rfl⟩
  | _ => exact ⟨_, _, rfl⟩

private theorem lines_head (width : Nat) (code : Code segment) (hsegment : segment ≠ .block) :
    code.lines style width = [] ∨
      ∃ print more, code.lines style width = style.line width print :: more := by
  cases segment with
  | statement => exact Or.inr (lines_statement style width code)
  | block => exact absurd rfl hsegment
  | statements =>
    cases code with
    | noStatements => exact Or.inl rfl
    | statements first others =>
      obtain ⟨print, more, heq⟩ := lines_statement style width first
      exact Or.inr ⟨print, more ++ others.lines style width, by rw [lines, heq]; rfl⟩
  | branches | otherwise | handlers | cleanup =>
    cases code
    · exact Or.inl rfl
    · exact Or.inr ⟨_, _, rfl⟩

private theorem within_lines {blocks : List Nat} {more : List Line} (code : Code segment)
    (hsegment : segment ≠ .block) (h : Line.Within blocks more) :
    Line.Within blocks (code.lines style (Layout.level blocks) ++ more) := by
  rcases lines_head style (Layout.level blocks) code hsegment with heq | ⟨print, others, heq⟩
  · rw [heq]
    exact h
  · rw [heq]
    intro line hmem
    obtain rfl := Option.mem_some.mp hmem
    exact Nat.le_of_eq (style.width_line print)

private theorem within_head {blocks : List Nat} (print : Print) (more : List Line) :
    Line.Within blocks (style.head (Layout.level blocks) print :: more) := by
  intro line hmem
  obtain rfl := Option.mem_some.mp hmem
  exact Nat.le_of_eq (style.width_line _)

/-- What stands before the lines of a piece: before a block, the end of the line that heads it. -/
def lead : Segment → List Token
  | .block => [style.lineBreak]
  | _ => []

section Tokens

variable {style : Style} {blocks : List Nat} {more : List Line} {body : Print}

private theorem allTokens_decorators (decorators : List Expression) (more : List Line) :
    Line.allTokens blocks (decorators.map (fun value =>
        style.line (Layout.level blocks) (.mark .at ++ value.tight)) ++ more) =
      (Print.concat (decorators.map (.decorator style))).words ++ Line.allTokens blocks more := by
  induction decorators with
  | nil => rfl
  | cons value decorators ih =>
    rw [List.map_cons, List.cons_append, Style.allTokens_line, ih]
    simp [Print.concat, Print.decorator, Print.node, Print.leaf]

private theorem allTokens_head (head : Print) {lines : List Line}
    (hbody : style.lineBreak :: Line.allTokens blocks lines = body.words ++ Line.allTokens blocks more) :
    Line.allTokens blocks (style.head (Layout.level blocks) head :: lines) =
      (head ++ Print.block body).words ++ Line.allTokens blocks more := by
  rw [Style.head, Style.allTokens_line, hbody]
  simp [Print.block, List.append_assoc]

private theorem allTokens_block {first : Code .statement} {others : Code .statements} (extra : Nat)
    (h : Line.Within blocks more)
    (hfirst : ∀ more, Line.Within ((Layout.level blocks + extra + 1) :: blocks) more →
      lead style .statement ++ Line.allTokens ((Layout.level blocks + extra + 1) :: blocks)
          (first.lines style (Layout.level blocks + extra + 1) ++ more) =
        (first.print style).words ++
          Line.allTokens ((Layout.level blocks + extra + 1) :: blocks) more)
    (hothers : ∀ more, Line.Within ((Layout.level blocks + extra + 1) :: blocks) more →
      lead style .statements ++ Line.allTokens ((Layout.level blocks + extra + 1) :: blocks)
          (others.lines style (Layout.level blocks + extra + 1) ++ more) =
        (others.print style).words ++
          Line.allTokens ((Layout.level blocks + extra + 1) :: blocks) more) :
    lead style .block ++ Line.allTokens blocks
        ((Code.block extra first others).lines style (Layout.level blocks) ++ more) =
      ((Code.block extra first others).print style).words ++ Line.allTokens blocks more := by
  have hwider : Layout.level blocks < Layout.level blocks + extra + 1 := by omega
  generalize hwidth : Layout.level blocks + extra + 1 = width at *
  have hwithin : Line.Within (width :: blocks) more := by
    intro line hmem
    exact Nat.le_trans (h line hmem) (Nat.le_of_lt hwider)
  have hlevel : Layout.level (width :: blocks) = width := rfl
  have hmore := within_lines style others (by decide) hwithin
  rw [hlevel] at hmore
  have hopen : Line.allTokens blocks (first.lines style width ++ (others.lines style width ++ more)) =
      Token.indent :: Line.allTokens (width :: blocks)
        (first.lines style width ++ (others.lines style width ++ more)) := by
    obtain ⟨print, rest, heq⟩ := lines_statement style width first
    rw [heq, List.cons_append]
    exact style.allTokens_open print _ hwider
  have hlines := hfirst _ hmore
  have hrest := hothers _ hwithin
  simp only [lead, List.nil_append] at hlines hrest
  simp [lead, lines, print, hwidth, hopen, hlines, hrest, Line.allTokens_close h hwider, Print.node,
    Print.leaf]

/-- The layout of the lines of a piece has the words of its print. The induction is on the piece; in a
block the level is the one of the block. -/
theorem allTokens_lines (code : Code segment) (blocks : List Nat) {more : List Line}
    (h : Line.Within blocks more) :
    lead style segment ++ Line.allTokens blocks (code.lines style (Layout.level blocks) ++ more) =
      (code.print style).words ++ Line.allTokens blocks more := by
  induction code generalizing blocks more with
  | simple content =>
    simp [lead, lines, print, Style.allTokens_line, Print.leaf]
  | function decorators name parameters result body ih =>
    have hhead := allTokens_head (.word .defWord ++ (.name name ++ (.parameters parameters ++
      .result result))) (ih blocks h)
    simp [lead, lines, print, allTokens_decorators, hhead, Print.node]
  | classDefinition decorators name bases body ih =>
    have hhead := allTokens_head (.word .classWord ++ (.name name ++ .bases bases)) (ih blocks h)
    simp [lead, lines, print, allTokens_decorators, hhead, Print.node]
  | choice condition body others final ihbody ihothers ihfinal =>
    have hfinal := within_lines style final (by decide) h
    have hothers := within_lines style others (by decide) hfinal
    have hhead := allTokens_head (.word .ifWord ++ condition.tight) (ihbody blocks hothers)
    have hbranches := ihothers blocks hfinal
    have hotherwise := ihfinal blocks h
    simp only [lead, List.nil_append] at hbranches hotherwise
    simp [lead, lines, print, hhead, hbranches, hotherwise, Print.node]
  | repeated condition body final ihbody ihfinal =>
    have hfinal := within_lines style final (by decide) h
    have hhead := allTokens_head (.word .whileWord ++ condition.tight) (ihbody blocks hfinal)
    have hotherwise := ihfinal blocks h
    simp only [lead, List.nil_append] at hotherwise
    simp [lead, lines, print, hhead, hotherwise, Print.node]
  | each targets iterable body final ihbody ihfinal =>
    have hfinal := within_lines style final (by decide) h
    have hhead := allTokens_head (.word .forWord ++ (targets.print ++ (.word .inWord ++
      iterable.loose))) (ihbody blocks hfinal)
    have hotherwise := ihfinal blocks h
    simp only [lead, List.nil_append] at hotherwise
    simp [lead, lines, print, hhead, hotherwise, Print.node]
  | entering first others body ih =>
    have hhead := allTokens_head (.word .withWord ++ .items ((first :: others).map Entered.print))
      (ih blocks h)
    simp only [List.map_cons] at hhead
    simp [lead, lines, print, hhead, Print.node]
  | attempt body caught handler others final finish ihbody ihhandler ihothers ihfinal ihfinish =>
    have hfinish := within_lines style finish (by decide) h
    have hfinal := within_lines style final (by decide) hfinish
    have hothers := within_lines style others (by decide) hfinal
    have hhandler := allTokens_head (.word .exceptWord ++ .caught caught) (ihhandler blocks hothers)
    have htry (more : List Line) := allTokens_head (.word .tryWord)
      (ihbody blocks (within_head style (.word .exceptWord ++ .caught caught) more))
    have hhandlers := ihothers blocks hfinal
    have hotherwise := ihfinal blocks hfinish
    have hcleanup := ihfinish blocks h
    simp only [lead, List.nil_append] at hhandlers hotherwise hcleanup
    simp [lead, lines, print, htry, hhandler, hhandlers, hotherwise, hcleanup, Print.node]
  | assured body finish ihbody ihfinish =>
    have hfinally := allTokens_head (.word .finallyWord) (ihfinish blocks h)
    have htry (more : List Line) := allTokens_head (.word .tryWord)
      (ihbody blocks (within_head style (.word .finallyWord) more))
    simp [lead, lines, print, htry, hfinally, Print.node]
  | noStatements => rfl
  | statements first others ihfirst ihothers =>
    have hmore := within_lines style others (by decide) h
    have hfirst := ihfirst blocks hmore
    have hothers := ihothers blocks h
    simp only [lead, List.nil_append] at hfirst hothers
    simp [lead, lines, print, hfirst, hothers]
  | block extra first others ihfirst ihothers =>
    exact allTokens_block extra h (fun more => ihfirst _) (fun more => ihothers _)
  | noBranches => rfl
  | branches condition body others ihbody ihothers =>
    have hmore := within_lines style others (by decide) h
    have hhead := allTokens_head (.word .elifWord ++ condition.tight) (ihbody blocks hmore)
    have hothers := ihothers blocks h
    simp only [lead, List.nil_append] at hothers
    simp [lead, lines, print, hhead, hothers, Print.node]
  | noOtherwise => rfl
  | otherwise body ih =>
    have hhead := allTokens_head (.word .elseWord) (ih blocks h)
    simp [lead, lines, print, hhead, Print.node]
  | noHandlers => rfl
  | handlers caught body others ihbody ihothers =>
    have hmore := within_lines style others (by decide) h
    have hhead := allTokens_head (.word .exceptWord ++ .caught caught) (ihbody blocks hmore)
    have hothers := ihothers blocks h
    simp only [lead, List.nil_append] at hothers
    simp [lead, lines, print, hhead, hothers, Print.node]
  | noCleanup => rfl
  | cleanup body ih =>
    have hhead := allTokens_head (.word .finallyWord) (ih blocks h)
    simp [lead, lines, print, hhead, Print.node]

end Tokens

end Code

end Syntax

end QuantumScript
