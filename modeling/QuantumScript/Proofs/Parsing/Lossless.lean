import QuantumScript.Syntax.Grammar
/-!
# Lossless parsing

No step of a parse loses, doubles, adds or moves a token. What holds of every step is that the leaves
of the finished parts, with the tokens ahead after them, stay the same.
-/

namespace QuantumScript

namespace Syntax

namespace Tree

theorem leavesAll_append (trees others : List Tree) :
    leavesAll (trees ++ others) = leavesAll trees ++ leavesAll others := by
  induction trees with
  | nil => rfl
  | cons tree trees ih => rw [List.cons_append, leavesAll, leavesAll, ih, List.append_assoc]

end Tree

/-- What a token is as a leaf of a tree. -/
def Token.entry (token : Token) : TokenKind × List Char := (token.kind, token.text)

theorem Tree.leavesAll_tokens (tokens : List Token) :
    leavesAll (tokens.map fun token => .token token.kind token.text) = tokens.map Token.entry := by
  induction tokens with
  | nil => rfl
  | cons token tokens ih =>
    rw [List.map_cons, leavesAll, ih]
    rfl

namespace Parse

/-- The leaves of the finished parts, and the tokens ahead after them. -/
def leaves (parse : Parse) : List (TokenKind × List Char) :=
  Tree.leavesAll parse.parts.reverse ++ parse.rest.map Token.entry

private theorem leaves_shift (parse : Parse) : parse.shift.leaves = parse.leaves := by
  unfold shift
  split
  · rfl
  · rename_i token rest heq
    simp only [leaves, heq, List.reverse_cons, Tree.leavesAll_append, List.map_cons,
      List.append_assoc]
    rfl

private theorem leaves_shiftWhile (p : Token → Bool) (parse : Parse) :
    (parse.shiftWhile p).leaves = parse.leaves := by
  have hrest : (parse.rest.takeWhile p).map Token.entry ++ (parse.rest.dropWhile p).map Token.entry =
      parse.rest.map Token.entry := by
    rw [← List.map_append, List.takeWhile_append_dropWhile]
  rw [shiftWhile_eq]
  simp only [leaves, List.reverse_append, List.reverse_reverse, Tree.leavesAll_append,
    Tree.leavesAll_tokens, List.append_assoc, hrest]

private theorem leaves_flush (parse : Parse) : parse.flush.leaves = parse.leaves :=
  leaves_shiftWhile _ parse

private theorem leaves_take (parse : Parse) : parse.take.leaves = parse.leaves := by
  unfold take
  split
  · rfl
  · rw [leaves_shift, leaves_flush]

private theorem leaves_skip (parse : Parse) : parse.skip.leaves = parse.leaves := by
  fun_induction skip parse with
  | case1 => rfl
  | case2 parse _ ih => rw [ih, leaves_take]

private theorem leaves_finishStatement (booked : Nat) (parse : Parse) :
    (parse.finishStatement booked).leaves = parse.leaves := by
  unfold finishStatement
  split
  · rfl
  · split
    · rw [leaves_skip]
      rfl
    · rw [leaves_skip]

private theorem leaves_close (label : List Tree → NodeKind) (checkpoint : Nat) (parse : Parse) :
    (parse.close label checkpoint).leaves = parse.leaves := by
  unfold close
  split
  · have hparts (count : Nat) : parse.parts.reverse =
        (parse.parts.drop count).reverse ++ (parse.parts.take count).reverse := by
      rw [← List.reverse_append, List.take_append_drop]
    have hnode (kind : NodeKind) (children : List Tree) :
        Tree.leavesAll [.node kind children] = Tree.leavesAll children := by
      rw [Tree.leavesAll, Tree.leavesAll, Tree.leaves, List.append_nil]
    simp only [leaves, List.reverse_cons, Tree.leavesAll_append, hnode]
    rw [← Tree.leavesAll_append, ← hparts]
  · rfl

end Parse

/-- The action keeps all leaves. -/
def Action.Lossless (action : Action) : Prop :=
  ∀ parse, (action parse).2.leaves = parse.leaves

theorem Action.Lossless.iterate {action : Action} (h : action.Lossless) (parse : Parse) :
    (Action.iterate action parse).leaves = parse.leaves := by
  fun_induction Action.iterate action parse with
  | case1 parse next heq _ ih =>
    rw [ih, ← h parse, heq]
  | case2 parse next heq _ =>
    rw [← h parse, heq]
    rfl
  | case3 parse next heq =>
    rw [← h parse, heq]

namespace Script

variable {Rule : Type} {rules : Rule → Action}

private theorem run_lossless (hrules : ∀ rule, (rules rule).Lossless) (script : Script Rule) :
    (run rules script).Lossless := by
  induction script with
  | answer value => exact fun _ => rfl
  | bump kind =>
    intro parse
    rw [run_bump]
    split
    · exact parse.leaves_take
    · rfl
  | demand kinds =>
    intro parse
    rw [run_demand]
    split <;> rfl
  | advance => exact Parse.leaves_take
  | report problem => exact fun _ => rfl
  | ask question => exact fun _ => rfl
  | call rule => exact hrules rule
  | seq first second hfirst hsecond =>
    intro parse
    rw [run_seq, hsecond, hfirst]
  | cond test yes no htest hyes hno =>
    intro parse
    rw [run_cond]
    split
    · rw [hyes, htest]
    · rw [hno, htest]
  | node label body hbody =>
    intro parse
    rw [run_node, Parse.leaves_close, hbody, Parse.leaves_flush]
  | wrap kind body hbody =>
    intro parse
    rw [run_wrap, Parse.leaves_close, hbody]
  | statement kind body hbody =>
    intro parse
    rw [run_statement, Parse.leaves_close, Parse.leaves_finishStatement, hbody,
      Parse.leaves_flush]
  | loop body hbody =>
    intro parse
    rw [run_loop, hbody.iterate]

private theorem runRule_lossless (grammar : Rule → Script Rule) (depth : Nat) (rule : Rule) :
    (runRule grammar depth rule).Lossless := by
  induction depth generalizing rule with
  | zero => exact fun _ => rfl
  | succ depth ih => exact run_lossless ih (grammar rule)

end Script

private theorem dropWhile_all (tokens : List Token) :
    tokens.dropWhile (fun _ => true) = [] := by
  induction tokens with
  | nil => rfl
  | cons token tokens ih => exact ih

/-- The tree of any tokens has these tokens as its leaves. -/
theorem leavesAll_parseTokens (tokens : List Token) :
    Tree.leavesAll (parseTokens tokens).parts.reverse = tokens.map Token.entry := by
  have hall : (parseTokens tokens).leaves = (Parse.start tokens).leaves := by
    rw [parseTokens, Parse.leaves_shiftWhile,
      Script.run_lossless (Script.runRule_lossless grammar _) Production.file]
  have hrest : (parseTokens tokens).rest = [] := by
    rw [parseTokens, Parse.shiftWhile_eq]
    exact dropWhile_all _
  rw [Parse.leaves, hrest, List.map_nil, List.append_nil] at hall
  exact hall

namespace Token

/-- The offsets at which the tokens start, and the one at which the last of them stops. -/
def starts (offset : Nat) : List Token → List Nat
  | [] => [offset]
  | token :: tokens => offset :: starts (offset + Text.byteLength token.text) tokens

private theorem le_of_mem_starts {offset start : Nat} {tokens : List Token}
    (h : start ∈ starts offset tokens) : offset ≤ start := by
  induction tokens generalizing offset with
  | nil => exact Nat.le_of_eq (List.mem_singleton.mp h).symm
  | cons token tokens ih =>
    rcases List.mem_cons.mp h with rfl | hlater
    · exact Nat.le_refl _
    · exact Nat.le_trans (Nat.le_add_right _ _) (ih hlater)

private theorem starts_sorted (offset : Nat) (tokens : List Token) :
    (starts offset tokens).Pairwise (· ≤ ·) := by
  induction tokens generalizing offset with
  | nil => exact List.pairwise_singleton _ _
  | cons token tokens ih =>
    refine List.pairwise_cons.mpr ⟨?_, ih _⟩
    intro start hmem
    exact Nat.le_trans (Nat.le_add_right _ _) (le_of_mem_starts hmem)

theorem starts_zero (offset : Nat) (tokens : List Token) :
    (starts offset tokens)[0]? = some offset := by
  cases tokens <;> rfl

private theorem slice_starts (before : List Char) (tokens : List Token) (i : Nat) (token : Token)
    (h : tokens[i]? = some token) :
    ∃ start stop, (starts (Text.byteLength before) tokens)[i]? = some start ∧
      (starts (Text.byteLength before) tokens)[i + 1]? = some stop ∧
      Text.slice? start stop (before ++ tokens.flatMap Token.text) = some token.text := by
  induction tokens generalizing before i with
  | nil => simp at h
  | cons first tokens ih =>
    have hnext : Text.byteLength before + Text.byteLength first.text =
        Text.byteLength (before ++ first.text) := (Text.byteLength_append _ _).symm
    cases i with
    | zero =>
      obtain rfl : first = token := by simpa using h
      refine ⟨_, _, rfl, starts_zero _ _, ?_⟩
      rw [List.flatMap_cons]
      exact Text.slice?_append before first.text _
    | succ i =>
      obtain ⟨start, stop, hstart, hstop, hslice⟩ := ih (before ++ first.text) i (by simpa using h)
      refine ⟨start, stop, ?_, ?_, ?_⟩
      · rw [starts, hnext]
        exact hstart
      · rw [starts, hnext]
        exact hstop
      · rw [List.flatMap_cons, ← List.append_assoc]
        exact hslice

/-- A token that opens or closes a block. -/
def isBlockEdge (token : Token) : Bool := token.kind = .indent || token.kind = .dedent

private theorem isBlockEdge_ofLexeme (lexeme : Lexeme) : (ofLexeme lexeme).isBlockEdge = false := by
  unfold ofLexeme
  split
  · rfl
  · rfl
  · rfl
  · split <;> rfl
  · rename_i form _
    cases form <;> rfl
  · rfl
  · rfl

end Token

namespace Layout

private theorem text_unindent (width : Nat) (blocks : List Nat) (token : Token)
    (h : token ∈ (unindent width blocks).1) : token.text = [] := by
  induction blocks with
  | nil =>
    unfold unindent at h
    split at h <;> simp_all [Token.strayIndent]
  | cons block blocks ih =>
    unfold unindent at h
    split at h
    · rcases List.mem_cons.mp h with rfl | hlater
      · rfl
      · exact ih hlater
    · split at h <;> simp_all [Token.strayIndent]

private theorem text_reindent (width : Nat) (blocks : List Nat) (token : Token)
    (h : token ∈ (reindent width blocks).1) : token.text = [] := by
  unfold reindent at h
  split at h
  · rw [List.mem_singleton.mp h]
    rfl
  · exact text_unindent width blocks token h

private theorem text_step (layout : Layout) (lexeme : Lexeme) (token : Token)
    (h : token ∈ (layout.step lexeme).1) (hedge : token.isBlockEdge = true) :
    token.text = [] := by
  have hplain := Token.isBlockEdge_ofLexeme lexeme
  unfold step at h
  dsimp only at h
  split at h
  · rw [List.mem_singleton.mp h, hplain] at hedge
    cases hedge
  · rw [List.mem_singleton.mp h, hplain] at hedge
    cases hedge
  · have htoken := List.mem_singleton.mp h
    split at htoken
    · rw [htoken] at hedge
      cases hedge
    · rw [htoken, hplain] at hedge
      cases hedge
  · rcases List.mem_append.mp h with hopening | hlast
    · split at hopening
      · exact text_reindent _ _ token hopening
      · cases hopening
    · rw [List.mem_singleton.mp hlast, hplain] at hedge
      cases hedge

private theorem text_finish (layout : Layout) (token : Token) (h : token ∈ layout.finish) :
    token.text = [] := by
  unfold finish at h
  rcases List.mem_append.mp h with hend | hclose
  · split at hend
    · cases hend
    · rw [List.mem_singleton.mp hend]
      rfl
  · obtain ⟨_, _, rfl⟩ := List.mem_map.mp hclose
    rfl

private theorem text_tokens (layout : Layout) (lexemes : List Lexeme) (token : Token)
    (h : token ∈ layout.tokens lexemes) (hedge : token.isBlockEdge = true) :
    token.text = [] := by
  induction lexemes generalizing layout with
  | nil => exact text_finish layout token h
  | cons lexeme lexemes ih =>
    rcases List.mem_append.mp h with hfirst | hlater
    · exact text_step layout lexeme token hfirst hedge
    · exact ih _ hlater

end Layout

/-- The source stands in its lexemes, in its tokens and in its tree, each read from left to right.
Every token is the text from its start to the next start, blocks open and close without a text, and
the leaves of the tree are all tokens in their order, each with its own kind. -/
theorem parse_lossless (source : List Char) :
    (Lexeme.ofText source).flatMap Lexeme.text = source ∧
    (Token.ofText source).flatMap Token.text = source ∧
    (parse source).tree.text = source ∧
    (Token.starts 0 (Token.ofText source)).Pairwise (· ≤ ·) ∧
    (∀ i token, (Token.ofText source)[i]? = some token →
      ∃ start stop, (Token.starts 0 (Token.ofText source))[i]? = some start ∧
        (Token.starts 0 (Token.ofText source))[i + 1]? = some stop ∧
        Text.slice? start stop source = some token.text) ∧
    (∀ token ∈ Token.ofText source,
      token.kind = .indent ∨ token.kind = .dedent → token.text = []) ∧
    (parse source).tree.leaves =
      (Token.ofText source).map fun token => (token.kind, token.text) := by
  have htext := Token.flatMap_text_ofText source
  have hleaves : (parse source).tree.leaves = (Token.ofText source).map Token.entry := by
    rw [parse, Tree.leaves]
    exact leavesAll_parseTokens _
  refine ⟨Lexeme.flatMap_text_ofText source, htext, ?_, Token.starts_sorted _ _, ?_, ?_, hleaves⟩
  · rw [Tree.text, hleaves, List.flatMap_map]
    exact htext
  · intro i token hi
    have hslice := Token.slice_starts [] (Token.ofText source) i token hi
    rw [List.nil_append, htext] at hslice
    exact hslice
  · intro token hmem hkind
    apply Layout.text_tokens Layout.start (Lexeme.ofText source) token hmem
    simpa [Token.isBlockEdge] using hkind

end Syntax

end QuantumScript
