import QuantumScript.Proofs.Printing.Levels
import QuantumScript.Proofs.Printing.Lines
import QuantumScript.Proofs.Printing.Texts
/-!
# Spread lines

A logical line may be spread over a text: blanks and comments stand between its words, and line breaks too
where a bracket is open. None of this is seen by the grammar, so the significant tokens of the text are the
words and the end of the line.
-/

namespace QuantumScript

namespace Syntax

open Layout (nest)

/-- Tokens that go on with the words of a line and end it, where so many brackets are open. After the line come
at most blank lines and comments. -/
inductive Spread : Nat → List Token → List Token → Prop
  | done : Spread 0 [] []
  | ended {stop after} (hstop : stop.kind = .newline)
      (hafter : ∀ token ∈ after, token.isTrivia = true ∨ token.kind = .newline) : Spread 0 [] (stop :: after)
  | filler {depth words token tokens} (htoken : token.isTrivia = true) (h : Spread depth words tokens) :
      Spread depth words (token :: tokens)
  | fold {depth words token tokens} (htoken : token.kind = .newline) (h : Spread (depth + 1) words tokens) :
      Spread (depth + 1) words (token :: tokens)
  | word {depth words token tokens} (htoken : Layout.Solid token)
      (h : Spread (nest depth token.kind) words tokens) : Spread depth (token :: words) (token :: tokens)

/-- The text begins with the first of the words and spreads them over one logical line. -/
def Spells (text : List Char) (words : List Token) : Prop :=
  ∃ first others tokens, words = first :: others ∧ Token.cut text = first :: tokens ∧ Layout.Solid first ∧
    Spread (nest 0 first.kind) others tokens

namespace Layout

instance (token : Token) : Decidable (Solid token) :=
  inferInstanceAs (Decidable (token.kind.isTrivia = false ∧ token.kind ≠ .newline))

private theorem place_trivia {token : Token} (htoken : token.isTrivia = true) (blocks : List Nat)
    (width brackets : Nat) (fresh : Bool) :
    ∃ later, place ⟨blocks, width, fresh, brackets⟩ token = ([token], ⟨blocks, later, fresh, brackets⟩) := by
  cases hkind : token.kind with
  | blank =>
    rw [place, hkind]
    exact ⟨_, rfl⟩
  | comment =>
    rw [place, hkind]
    exact ⟨width, rfl⟩
  | _ =>
    rw [Token.isTrivia, hkind] at htoken
    cases htoken

private theorem place_newline {token : Token} (htoken : token.kind = .newline) (blocks : List Nat)
    (width brackets : Nat) (fresh : Bool) :
    place ⟨blocks, width, fresh, brackets⟩ token =
      ([if 0 < brackets || fresh then { token with kind := .blank } else token],
        ⟨blocks, 0, fresh || brackets = 0, brackets⟩) := by
  rw [place, htoken]

private theorem significant_idle {tokens : List Token}
    (h : ∀ token ∈ tokens, token.isTrivia = true ∨ token.kind = .newline) (width : Nat) :
    Token.significant (placeAll ⟨[], width, true, 0⟩ tokens) = [] := by
  induction tokens generalizing width with
  | nil => rfl
  | cons token tokens ih =>
    obtain ⟨htoken, hothers⟩ := List.forall_mem_cons.mp h
    rcases htoken with htrivia | hnewline
    · obtain ⟨later, hplace⟩ := place_trivia htrivia [] width 0 true
      rw [placeAll, hplace, List.singleton_append, Token.significant_cons_trivia htrivia]
      exact ih hothers later
    · rw [placeAll, place_newline hnewline, List.singleton_append]
      exact (Token.significant_cons_trivia rfl _).trans (ih hothers 0)

/-- The layout leaves the words of a line as they are, however they are spread. The induction is on the tokens;
the line break of a bracket sets the width back, which does not matter within the line. -/
private theorem significant_spread {depth : Nat} {words tokens : List Token} (h : Spread depth words tokens)
    (width : Nat) :
    ∃ stop, Token.significant (placeAll ⟨[], width, false, depth⟩ tokens) = words ++ [stop] ∧
      stop.kind = .newline ∧ (stop = Token.lineEnd ∨ stop ∈ tokens) := by
  induction h generalizing width with
  | done => exact ⟨Token.lineEnd, rfl, rfl, .inl rfl⟩
  | @ended stop after hstop hafter =>
    refine ⟨stop, ?_, hstop, .inr List.mem_cons_self⟩
    have hsolid : stop.kind.isTrivia = false := by rw [hstop]; rfl
    rw [placeAll, place_newline hstop, List.singleton_append]
    exact (Token.significant_cons_solid hsolid _).trans (congrArg (stop :: ·) (significant_idle hafter 0))
  | @filler depth words token tokens htoken _ ih =>
    obtain ⟨later, hplace⟩ := place_trivia htoken [] width depth false
    obtain ⟨stop, heq, hstop, hmem⟩ := ih later
    refine ⟨stop, ?_, hstop, hmem.imp_right (List.mem_cons_of_mem _)⟩
    rw [placeAll, hplace, List.singleton_append, Token.significant_cons_trivia htoken]
    exact heq
  | @fold depth words token tokens htoken _ ih =>
    obtain ⟨stop, heq, hstop, hmem⟩ := ih 0
    refine ⟨stop, ?_, hstop, hmem.imp_right (List.mem_cons_of_mem _)⟩
    rw [placeAll, place_newline htoken, List.singleton_append]
    exact (Token.significant_cons_trivia rfl _).trans heq
  | @word depth words token tokens htoken _ ih =>
    obtain ⟨stop, heq, hstop, hmem⟩ := ih width
    refine ⟨stop, ?_, hstop, hmem.imp_right (List.mem_cons_of_mem _)⟩
    rw [placeAll, place_solid htoken, List.singleton_append, Token.significant_cons_solid htoken.1, heq]
    rfl

end Layout

namespace Spells

variable {text : List Char} {words : List Token}

/-- The first token of the text is the first of the words. -/
theorem ofText_cons (h : Spells text words) :
    ∃ first others tokens, words = first :: others ∧ Layout.Solid first ∧
      Token.cut text = first :: tokens ∧ Spread (nest 0 first.kind) others tokens ∧
      Token.ofText text = first :: Layout.placeAll ⟨[], 0, false, nest 0 first.kind⟩ tokens := by
  obtain ⟨first, others, tokens, hwords, hcut, hfirst, hspread⟩ := h
  refine ⟨first, others, tokens, hwords, hfirst, hcut, hspread, ?_⟩
  rw [Token.ofText, Layout.tokens_eq_placeAll, ← Token.cut, hcut, Layout.start, Layout.placeAll,
    Layout.place_first hfirst]
  rfl

/-- The grammar sees the words and the end of the line. -/
theorem significant (h : Spells text words) :
    ∃ ending, Token.significant (Token.ofText text) = words ++ [.lineBreak ending] := by
  obtain ⟨first, others, tokens, rfl, hfirst, hcut, hspread, htokens⟩ := h.ofText_cons
  obtain ⟨stop, heq, hkind, hmem⟩ := Layout.significant_spread hspread 0
  have hflaw : stop.flaw = none := by
    rcases hmem with rfl | hmem
    · rfl
    · have hcuts : stop ∈ Token.cut text := by
        rw [hcut]
        exact List.mem_cons_of_mem first hmem
      obtain ⟨lexeme, _, rfl⟩ := List.mem_map.mp hcuts
      exact Token.flaw_ofLexeme lexeme (.inr hkind)
  have hstop : stop = .lineBreak stop.text := by
    obtain ⟨kind, text, flaw⟩ := stop
    obtain rfl : kind = .newline := hkind
    obtain rfl : flaw = none := hflaw
    rfl
  refine ⟨stop.text, ?_⟩
  rw [htokens, Token.significant_cons_solid hfirst.1, heq, ← hstop]
  rfl

end Spells

end Syntax

end QuantumScript
