import QuantumScript.Proofs.Parsing.Conforming
/-!
# Balance of blocks

The layout opens and closes blocks in pairs. Going through tokens from the left, the number of open blocks
tells which block end belongs to which block begin.
-/

namespace QuantumScript

namespace Syntax

namespace TokenKind

/-- Number of open blocks after one more token. There is none if a block is closed that was not opened. -/
def turn (count : Nat) : TokenKind → Option Nat
  | .indent => some (count + 1)
  | .dedent => if count = 0 then none else some (count - 1)
  | _ => some count

/-- Number of open blocks after tokens of the kinds. -/
def turns (count : Nat) (kinds : List TokenKind) : Option Nat := kinds.foldlM turn count

@[simp] theorem turns_nil (count : Nat) : turns count [] = some count := rfl

theorem turns_cons (count : Nat) (kind : TokenKind) (kinds : List TokenKind) :
    turns count (kind :: kinds) = (turn count kind).bind (turns · kinds) := rfl

theorem turns_append (count : Nat) (kinds more : List TokenKind) :
    turns count (kinds ++ more) = (turns count kinds).bind (turns · more) :=
  List.foldlM_append

/-- Kinds of tokens that open or close a block. -/
def edges : List TokenKind := [.indent, .dedent]

private theorem turn_inline {kind : TokenKind} (h : kind ∉ edges) (count : Nat) :
    turn count kind = some count := by
  cases kind with
  | indent => exact absurd (by decide) h
  | dedent => exact absurd (by decide) h
  | _ => rfl

theorem turns_cons_inline {kind : TokenKind} (h : kind ∉ edges) (count : Nat) (kinds : List TokenKind) :
    turns count (kind :: kinds) = turns count kinds := by
  rw [turns_cons, turn_inline h]
  rfl

/-- Blocks that were open before stay open. -/
theorem turns_add {count left : Nat} {kinds : List TokenKind} (h : turns count kinds = some left)
    (more : Nat) : turns (count + more) kinds = some (left + more) := by
  induction kinds generalizing count with
  | nil =>
    cases h
    rfl
  | cons kind kinds ih =>
    obtain ⟨mid, hmid, hrest⟩ := Option.bind_eq_some_iff.mp h
    have hturn : turn (count + more) kind = some (mid + more) := by
      cases kind with
      | dedent =>
        rw [turn] at hmid
        split at hmid <;> cases hmid
        rw [turn, if_neg (by omega)]
        exact congrArg some (by omega)
      | indent =>
        cases hmid
        exact congrArg some (by omega)
      | _ =>
        cases hmid
        rfl
    rw [turns_cons, hturn]
    exact ih hrest

end TokenKind

namespace Layout

open TokenKind

private theorem turns_unindent (width : Nat) (blocks : List Nat) :
    turns blocks.length ((unindent width blocks).1.map Token.kind) =
      some (unindent width blocks).2.length := by
  induction blocks with
  | nil =>
    unfold unindent
    split <;> rfl
  | cons block blocks ih =>
    unfold unindent
    split
    · exact ih
    · split <;> rfl

private theorem turns_reindent (width : Nat) (blocks : List Nat) :
    turns blocks.length ((reindent width blocks).1.map Token.kind) =
      some (reindent width blocks).2.length := by
  unfold reindent
  split
  · rfl
  · exact turns_unindent width blocks

private theorem turns_step (layout : Layout) (lexeme : Lexeme) :
    turns layout.blocks.length ((layout.step lexeme).1.map Token.kind) =
      some (layout.step lexeme).2.blocks.length := by
  have hinline : (Token.ofLexeme lexeme).kind ∉ edges := by
    intro hmem
    have hkind := Token.kind_ofLexeme lexeme
    simp_all [edges]
  unfold step
  dsimp only
  split
  · exact turns_cons_inline hinline _ []
  · exact turns_cons_inline hinline _ []
  · split
    · rfl
    · exact turns_cons_inline hinline _ []
  · rw [List.map_append, turns_append]
    split
    · rw [turns_reindent]
      exact turns_cons_inline hinline _ []
    · exact turns_cons_inline hinline _ []

private theorem turns_tokens (layout : Layout) (lexemes : List Lexeme) :
    turns layout.blocks.length ((layout.tokens lexemes).map Token.kind) = some 0 := by
  induction lexemes generalizing layout with
  | nil =>
    have hclosed (blocks : List Nat) :
        turns blocks.length ((blocks.map fun _ => Token.dedent).map Token.kind) = some 0 := by
      induction blocks with
      | nil => rfl
      | cons block blocks ih => exact ih
    rw [tokens, finish, List.map_append, turns_append]
    split <;> exact hclosed layout.blocks
  | cons lexeme lexemes ih =>
    rw [tokens, List.map_append, turns_append, turns_step]
    exact ih _

end Layout

/-- The tokens of a text open and close blocks in pairs. -/
theorem Token.turns_ofText (text : List Char) :
    TokenKind.turns 0 ((Token.ofText text).map Token.kind) = some 0 :=
  Layout.turns_tokens Layout.start (Lexeme.ofText text)

/-- Blanks and comments open and close nothing. -/
theorem Token.turns_significant (count : Nat) (tokens : List Token) :
    TokenKind.turns count ((significant tokens).map Token.kind) =
      TokenKind.turns count (tokens.map Token.kind) := by
  induction tokens generalizing count with
  | nil => rfl
  | cons token tokens ih =>
    rw [significant, List.filter_cons]
    split
    · rw [List.map_cons, List.map_cons, TokenKind.turns_cons, TokenKind.turns_cons]
      exact congrArg _ (funext ih)
    · rename_i htrivia
      have hinline : token.kind ∉ TokenKind.edges := by
        intro hmem
        simp only [TokenKind.edges, List.mem_cons, List.not_mem_nil, or_false] at hmem
        rcases hmem with hkind | hkind <;> simp [isTrivia, hkind, TokenKind.isTrivia] at htrivia
      rw [List.map_cons, TokenKind.turns_cons_inline hinline]
      exact ih count

end Syntax

end QuantumScript
