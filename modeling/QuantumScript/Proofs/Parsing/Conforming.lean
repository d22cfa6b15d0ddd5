import QuantumScript.Proofs.Parsing.Survey
/-!
# Trees of sources without errors

In the tree of a source without errors the children of every node make the shape of its kind: nothing is
missing, and nothing is there that has no place.
-/

namespace QuantumScript

namespace Syntax

namespace Layout

/-- A token carries the layout, or it is a lexeme. -/
def Springs (lexemes : List Lexeme) (token : Token) : Prop :=
  token.kind ∈ [.newline, .indent, .dedent, .blank] ∨ ∃ lexeme ∈ lexemes, token = Token.ofLexeme lexeme

private theorem edge_unindent (width : Nat) (blocks : List Nat) :
    ∀ token ∈ (unindent width blocks).1, token.kind ∈ [.newline, .indent, .dedent, .blank] := by
  induction blocks with
  | nil =>
    unfold unindent
    split <;> simp [Token.strayIndent]
  | cons block blocks ih =>
    unfold unindent
    split
    · exact List.forall_mem_cons.mpr ⟨by decide, ih⟩
    · split <;> simp [Token.strayIndent]

private theorem edge_reindent (width : Nat) (blocks : List Nat) :
    ∀ token ∈ (reindent width blocks).1, token.kind ∈ [.newline, .indent, .dedent, .blank] := by
  unfold reindent
  split
  · simp [Token.indent]
  · exact edge_unindent width blocks

private theorem springs_step (layout : Layout) (lexeme : Lexeme) :
    ∀ token ∈ (layout.step lexeme).1, Springs [lexeme] token := by
  have hown : Springs [lexeme] (Token.ofLexeme lexeme) :=
    .inr ⟨lexeme, List.mem_singleton_self _, rfl⟩
  unfold step
  dsimp only
  split
  · exact List.forall_mem_singleton.mpr hown
  · exact List.forall_mem_singleton.mpr hown
  · refine List.forall_mem_singleton.mpr ?_
    split
    · exact .inl (by simp)
    · exact hown
  · refine List.forall_mem_append.mpr ⟨?_, List.forall_mem_singleton.mpr hown⟩
    split
    · exact fun token hmem => .inl (edge_reindent _ _ token hmem)
    · exact List.forall_mem_nil _

theorem springs_tokens (layout : Layout) (lexemes : List Lexeme) :
    ∀ token ∈ layout.tokens lexemes, Springs lexemes token := by
  induction lexemes generalizing layout with
  | nil =>
    refine List.forall_mem_append.mpr ⟨?_, fun token hmem => .inl ?_⟩
    · split
      · exact List.forall_mem_nil _
      · exact List.forall_mem_singleton.mpr (.inl (by decide))
    · obtain ⟨_, _, rfl⟩ := List.mem_map.mp hmem
      decide
  | cons lexeme lexemes ih =>
    refine List.forall_mem_append.mpr ⟨fun token hmem => ?_, fun token hmem => ?_⟩
    · refine (springs_step layout lexeme token hmem).imp_right ?_
      rintro ⟨other, hother, rfl⟩
      exact ⟨other, List.mem_cons.mpr (.inl (List.mem_singleton.mp hother)), rfl⟩
    · refine (ih _ token hmem).imp_right ?_
      rintro ⟨other, hother, rfl⟩
      exact ⟨other, List.mem_cons_of_mem _ hother, rfl⟩

end Layout

/-- The end of the input is no token. -/
theorem Token.kind_ne_end {text : List Char} {token : Token} (h : token ∈ Token.ofText text) :
    token.kind ≠ .endOfInput := by
  rcases Layout.springs_tokens _ _ token h with hkind | ⟨lexeme, _, rfl⟩
  · intro hend
    rw [hend] at hkind
    exact absurd hkind (by decide)
  · exact fun hend => kind_ofLexeme lexeme (by simp [hend])

namespace Rule

/-- What the rules make. -/
def makes : Rule → Product
  | .clauses => .several [.keyword .forWord] .clauses .empty
  | .statement | .simpleLine => .several [] .empty .statements
  | .elseClause => .several [.keyword .elseWord] (.part .elseClause) .empty
  | .lambda | .yield | .parenthesized | .list | .dictionary => .single [.compound]
  | .arguments => .single [.part .arguments]
  | .argument => .single [.part .argument]
  | .subscripts => .single [.part .subscripts]
  | .subscript => .single [.part .subscript]
  | .attribute => .single [.part .attribute]
  | .parameters => .single [.part .parameters]
  | .parameter => .single [.part .parameter]
  | .suite => .single [.part .suite]
  | .simpleStatement | .function | .classDefinition | .decorated | .ifStatement | .whileStatement
  | .forStatement | .withStatement | .tryStatement => .single [.statement]
  | .expressionList | .targetList | .expression | .disjunction | .conjunction | .negation | .comparison
  | .bitOr | .bitXor | .bitAnd | .shift | .sum | .product | .factor | .power | .chain | .atom =>
    .single [.name, .compound]

theorem makers_grammar : Script.Makers grammar makes := by
  intro rule
  cases rule <;> decide +kernel

end Rule

/-- Whatever the source, its tree is what the strict reading of the grammar makes of the significant
tokens, blanks and comments aside, and the problems of the reading are those of the grammar's errors. -/
theorem parse_read (source : List Char) :
    ∃ sketch, Production.file.read grammar ⟨Token.significant (Token.ofText source), [], []⟩ =
        some (true, sketch) ∧
      (parse source).tree.bare = .node .file sketch.parts.reverse ∧
      (parseTokens (Token.ofText source)).errors.map Error.problem = sketch.problems := by
  obtain ⟨next, sketch, hrun, hread, hsketched, hend⟩ := Script.run_file (Token.ofText source)
  have hrest : sketch.rest = [] := by
    obtain ⟨taken, htakes⟩ := (Script.reads_of_read hread).takes
    obtain ⟨rest, parts, problems⟩ := sketch
    cases rest with
    | nil => rfl
    | cons token rest =>
      have hmem : token ∈ Token.significant (Token.ofText source) := by
        have hsplit : Token.significant (Token.ofText source) = taken ++ token :: rest := htakes.rest
        rw [hsplit]
        exact List.mem_append_right _ List.mem_cons_self
      exact absurd hend (Token.kind_ne_end (List.mem_filter.mp hmem).1)
  have htrivia : ∀ token ∈ next.rest, token.isTrivia = true := by
    have hnone := hsketched.rest
    rw [hrest, Token.significant, List.filter_eq_nil_iff] at hnone
    intro token hmem
    simpa using hnone token hmem
  have hall : next.rest.takeWhile (fun _ => true) = next.rest := by
    induction next.rest with
    | nil => rfl
    | cons token rest ih => rw [List.takeWhile_cons_of_pos rfl, ih]
  have hdone : parseTokens (Token.ofText source) = next.shiftWhile fun _ => true := by
    rw [parseTokens, hrun]
  obtain ⟨top, htop, hparts⟩ := hsketched.parts
  refine ⟨sketch, hread, ?_, ?_⟩
  · have hbare : Tree.bareAll (parseTokens (Token.ofText source)).parts = sketch.parts := by
      rw [hdone, Parse.shiftWhile_eq, hall]
      change Tree.bareAll ((next.rest.map Token.leaf).reverse ++ next.parts) = sketch.parts
      rw [Tree.bareAll_append, Tree.bareAll_reverse, Sketched.bareAll_trivia _ htrivia, htop,
        List.append_nil]
      exact hparts
    simp only [parse, Tree.bare]
    rw [Tree.bareAll_reverse, hbare]
  · rw [hdone, Parse.shiftWhile_eq]
    exact hsketched.problems

/-- A source without errors is read without a problem. -/
theorem problems_of_errors_nil {source : List Char} (h : (parse source).errors = []) :
    (parseTokens (Token.ofText source)).errors.map Error.problem = [] := by
  have herrors := congrArg List.length h
  rw [parse, List.length_mergeSort, List.length_append, List.length_reverse] at herrors
  rw [List.map_eq_nil_iff, ← List.length_eq_zero_iff]
  exact Nat.eq_zero_of_add_eq_zero_right herrors

/-- If the grammar books no error then the children of every node make its shape. -/
theorem parse_formed {source : List Char} (h : (parse source).errors = []) :
    (parse source).tree.Formed := by
  obtain ⟨sketch, hread, hbare, hproblems⟩ := parse_read source
  have hnone : sketch.problems = [] := hproblems.symm.trans (problems_of_errors_nil h)
  apply Tree.formed_of_bare
  rw [hbare]
  obtain ⟨stage, hstage, -, hmeets⟩ :=
    ((Script.reads_of_read hread).told Rule.makers_grammar).surveyed
      ⟨true, .except [], ⟨[.ofKind .file], none⟩⟩ [.ofKind .file] []
      ⟨Kinds.allows_except [] _, Tally.tells_start _ _⟩ (by rw [hnone])
  have hdone : (Production.file.survey Rule.makes (.except [])
      ⟨[.ofKind .file], none⟩).all (fun stage => stage.tally.settle.done) = true := by
    decide
  obtain ⟨hformed, hfits⟩ := hmeets.tally.fits (List.all_eq_true.mp hdone stage hstage)
  exact .node (by simpa using hfits) hformed

end Syntax

end QuantumScript
