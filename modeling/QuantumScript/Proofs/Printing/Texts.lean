import QuantumScript.Proofs.Printing.Expressions
import QuantumScript.Proofs.Parsing.Soundness
/-!
# Reading a text back

Where the strict reading of the significant tokens of a text books no problem and the tokens have no
flaw, the parse of the text has no error, and its tree is the one that was read.
-/

namespace QuantumScript

namespace Syntax

namespace Token

/-- Nothing can be wrong with a blank or a comment. -/
theorem flaw_ofLexeme (lexeme : Lexeme) (h : (ofLexeme lexeme).isTrivia = true ∨
    (ofLexeme lexeme).kind = .newline) : (ofLexeme lexeme).flaw = none := by
  unfold ofLexeme at h ⊢
  split
  · rfl
  · rfl
  · rfl
  · split <;> rfl
  · rename_i form heq
    rw [heq] at h
    cases form <;> rcases h with h | h <;> cases h
  · rfl
  · rename_i heq
    rw [heq] at h
    rcases h with h | h <;> cases h

end Token

namespace Layout

private theorem trivia_unindent (width : Nat) (blocks : List Nat) (token : Token)
    (h : token ∈ (unindent width blocks).1) : token.isTrivia = false := by
  induction blocks with
  | nil =>
    unfold unindent at h
    split at h
    · cases h
    · rw [List.mem_singleton.mp h]
      rfl
  | cons block blocks ih =>
    unfold unindent at h
    split at h
    · rcases List.mem_cons.mp h with rfl | h
      · rfl
      · exact ih h
    · split at h
      · cases h
      · rw [List.mem_singleton.mp h]
        rfl

private theorem trivia_reindent (width : Nat) (blocks : List Nat) (token : Token)
    (h : token ∈ (reindent width blocks).1) : token.isTrivia = false := by
  unfold reindent at h
  split at h
  · rw [List.mem_singleton.mp h]
    rfl
  · exact trivia_unindent width blocks token h

private theorem flaw_step (layout : Layout) (lexeme : Lexeme) (token : Token)
    (h : token ∈ (layout.step lexeme).1) (htrivia : token.isTrivia = true) :
    token.flaw = none := by
  have hlexeme := Token.flaw_ofLexeme lexeme
  unfold step at h
  dsimp only at h
  split at h
  · rw [List.mem_singleton.mp h] at htrivia ⊢
    exact hlexeme (Or.inl htrivia)
  · rw [List.mem_singleton.mp h] at htrivia ⊢
    exact hlexeme (Or.inl htrivia)
  · rename_i hkind
    rw [List.mem_singleton.mp h]
    split <;> exact hlexeme (Or.inr hkind)
  · rcases List.mem_append.mp h with hopening | hlast
    · split at hopening
      · rw [trivia_reindent _ _ token hopening] at htrivia
        cases htrivia
      · cases hopening
    · rw [List.mem_singleton.mp hlast] at htrivia ⊢
      exact hlexeme (Or.inl htrivia)

theorem flaw_tokens (layout : Layout) (lexemes : List Lexeme) (token : Token)
    (h : token ∈ layout.tokens lexemes) (htrivia : token.isTrivia = true) : token.flaw = none := by
  induction lexemes generalizing layout with
  | nil =>
    rcases List.mem_append.mp h with h | h
    · split at h
      · cases h
      · rw [List.mem_singleton.mp h]
        rfl
    · obtain ⟨_, _, rfl⟩ := List.mem_map.mp h
      rfl
  | cons lexeme lexemes ih =>
    rcases List.mem_append.mp h with h | h
    · exact flaw_step layout lexeme token h htrivia
    · exact ih _ h

end Layout

private theorem Error.ofTokens_flawless (offset : Nat) {tokens : List Token}
    (h : ∀ token ∈ tokens, token.flaw = none) : ofTokens offset tokens = [] := by
  induction tokens generalizing offset with
  | nil => rfl
  | cons token tokens ih =>
    have hothers := ih (offset + Text.byteLength token.text) fun other hmem => h other (by simp [hmem])
    rw [ofTokens, h token (by simp)]
    exact hothers

/-- What the strict reading makes of the significant tokens is the tree of the text. -/
theorem parse_of_read {source : List Char} {parts : List Tree}
    (hread : Production.file.read grammar ⟨Token.significant (Token.ofText source), [], []⟩ =
      some (true, ⟨[], parts, []⟩))
    (hflaw : ∀ token ∈ Token.significant (Token.ofText source), token.flaw = none) :
    (parse source).errors = [] ∧ (parse source).tree.bare = .node .file parts.reverse := by
  obtain ⟨next, sketch, hrun, hsketch, hsketched, _⟩ := Script.run_file (Token.ofText source)
  rw [hread] at hsketch
  obtain rfl := (Prod.mk.inj (Option.some.inj hsketch)).2
  have hflawless : ∀ token ∈ Token.ofText source, token.flaw = none := by
    intro token hmem
    cases htrivia : token.isTrivia with
    | true => exact Layout.flaw_tokens _ _ token hmem htrivia
    | false => exact hflaw token (List.mem_filter.mpr ⟨hmem, by simp [htrivia]⟩)
  have hdone : parseTokens (Token.ofText source) = next.shiftWhile fun _ => true := by
    rw [parseTokens, hrun]
  obtain ⟨top, htop, hparts⟩ := hsketched.parts
  have htrivia : ∀ token ∈ next.rest, token.isTrivia = true := by
    have hrest := hsketched.rest
    rw [Token.significant, List.filter_eq_nil_iff] at hrest
    intro token hmem
    simpa using hrest token hmem
  have hbare : Tree.bareAll (parseTokens (Token.ofText source)).parts = parts := by
    have hall : next.rest.takeWhile (fun _ => true) = next.rest := by
      induction next.rest with
      | nil => rfl
      | cons token rest ih => rw [List.takeWhile_cons_of_pos rfl, ih]
    rw [hdone, Parse.shiftWhile_eq, hall]
    change Tree.bareAll ((next.rest.map Token.leaf).reverse ++ next.parts) = parts
    rw [Tree.bareAll_append, Tree.bareAll_reverse, Sketched.bareAll_trivia _ htrivia, htop,
      List.append_nil]
    exact hparts
  have herrors : (parseTokens (Token.ofText source)).errors = [] := by
    rw [hdone, Parse.shiftWhile_eq]
    exact List.map_eq_nil_iff.mp hsketched.problems
  constructor
  · simp only [parse]
    rw [herrors, Error.ofTokens_flawless 0 hflawless]
    exact List.mergeSort_nil
  · simp only [parse, Tree.bare]
    rw [Tree.bareAll_reverse, hbare]

end Syntax

end QuantumScript
