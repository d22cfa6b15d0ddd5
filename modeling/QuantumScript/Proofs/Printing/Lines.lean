import QuantumScript.Proofs.Printing.Words
import QuantumScript.Proofs.Parsing.Steps
/-!
# Lines

The layout of a printed line. A line stands at some width, holds plain tokens whose brackets match,
and ends with a line break. Its tokens are those that open or close blocks, its own, and the end of
the line.
-/

namespace QuantumScript

namespace Syntax

namespace Layout

/-- The tokens of one more token of the text. -/
def place (layout : Layout) (token : Token) : List Token × Layout :=
  match token.kind with
  | .blank =>
    let width := if layout.atLineStart then layout.width + blankWidth token.text else layout.width
    ([token], { layout with width })
  | .comment => ([token], layout)
  | .newline =>
    let silent := 0 < layout.brackets || layout.atLineStart
    ([if silent then { token with kind := .blank } else token],
      { layout with width := 0, atLineStart := layout.atLineStart || layout.brackets = 0 })
  | kind =>
    let (opening, blocks) :=
      if layout.atLineStart then reindent layout.width layout.blocks else ([], layout.blocks)
    (opening ++ [token],
      { layout with blocks, atLineStart := false, brackets := nest layout.brackets kind })

def placeAll (layout : Layout) : List Token → List Token
  | [] => layout.finish
  | token :: tokens => (layout.place token).1 ++ placeAll (layout.place token).2 tokens

/-- The layout looks at nothing of a lexeme but its token. -/
theorem tokens_eq_placeAll (layout : Layout) (lexemes : List Lexeme) :
    layout.tokens lexemes = layout.placeAll (lexemes.map Token.ofLexeme) := by
  induction lexemes generalizing layout with
  | nil => rfl
  | cons lexeme lexemes ih =>
    rw [tokens, List.map_cons, placeAll, ← ih]
    rfl

/-- The brackets that are open after some tokens. -/
def nestAll (brackets : Nat) (tokens : List Token) : Nat :=
  tokens.foldl (fun depth token => nest depth token.kind) brackets

/-- A token that is seen by the grammar and does not end a line. -/
def Solid (token : Token) : Prop := token.kind.isTrivia = false ∧ token.kind ≠ .newline

theorem place_solid {token : Token} (h : Solid token) (blocks : List Nat) (width brackets : Nat) :
    place ⟨blocks, width, false, brackets⟩ token =
      ([token], ⟨blocks, width, false, nest brackets token.kind⟩) := by
  obtain ⟨htrivia, hnewline⟩ := h
  unfold place
  split
  · rename_i hkind
    rw [hkind] at htrivia
    cases htrivia
  · rename_i hkind
    rw [hkind] at htrivia
    cases htrivia
  · rename_i hkind
    exact absurd hkind hnewline
  · rfl

/-- The first token of a line comes after the tokens that open and close blocks. -/
theorem place_first {token : Token} (h : Solid token) (blocks : List Nat) (width brackets : Nat) :
    place ⟨blocks, width, true, brackets⟩ token =
      ((reindent width blocks).1 ++ [token],
        ⟨(reindent width blocks).2, width, false, nest brackets token.kind⟩) := by
  obtain ⟨htrivia, hnewline⟩ := h
  unfold place
  split
  · rename_i hkind
    rw [hkind] at htrivia
    cases htrivia
  · rename_i hkind
    rw [hkind] at htrivia
    cases htrivia
  · rename_i hkind
    exact absurd hkind hnewline
  · rfl

end Layout

namespace Layout

private theorem placeAll_spaced {tokens : List Token} (h : ∀ token ∈ tokens, Solid token)
    (blocks : List Nat) (width brackets : Nat) (rest : List Token) :
    Token.significant (placeAll ⟨blocks, width, false, brackets⟩ (Token.spaced tokens ++ rest)) =
      tokens ++ Token.significant
        (placeAll ⟨blocks, width, false, nestAll brackets tokens⟩ rest) := by
  induction tokens generalizing brackets with
  | nil => rfl
  | cons token tokens ih =>
    have htoken := h token (by simp)
    have hothers : ∀ other ∈ tokens, Solid other := fun other hmem => h other (by simp [hmem])
    have hnext := ih hothers (nest brackets token.kind)
    cases tokens with
    | nil =>
      rw [Token.spaced, List.cons_append, placeAll, place_solid htoken, List.cons_append,
        Token.significant_cons_solid htoken.1]
      rfl
    | cons next tokens =>
      have hspaced : Token.spaced (token :: next :: tokens) =
          token :: Token.gap :: Token.spaced (next :: tokens) := rfl
      rw [hspaced, List.cons_append, placeAll, place_solid htoken, List.cons_append,
        Token.significant_cons_solid htoken.1]
      exact congrArg (token :: ·) hnext

private theorem placeAll_first {token : Token} {tokens : List Token}
    (h : ∀ other ∈ token :: tokens, Solid other) (blocks : List Nat) (width brackets : Nat)
    (rest : List Token) :
    Token.significant
        (placeAll ⟨blocks, width, true, brackets⟩ (Token.spaced (token :: tokens) ++ rest)) =
      Token.significant (reindent width blocks).1 ++ (token :: tokens) ++ Token.significant
        (placeAll ⟨(reindent width blocks).2, width, false, nestAll brackets (token :: tokens)⟩
          rest) := by
  have htoken := h token (by simp)
  have hsame := placeAll_spaced h (reindent width blocks).2 width brackets rest
  have hfirst (more : List Token) :
      placeAll ⟨blocks, width, true, brackets⟩ (token :: more) =
        (reindent width blocks).1 ++
          placeAll ⟨(reindent width blocks).2, width, false, brackets⟩ (token :: more) := by
    rw [placeAll, placeAll, place_first htoken, place_solid htoken, List.append_assoc]
  obtain ⟨more, hmore⟩ : ∃ more, Token.spaced (token :: tokens) ++ rest = token :: more := by
    cases tokens with
    | nil => exact ⟨_, rfl⟩
    | cons next tokens => exact ⟨_, rfl⟩
  rw [hmore] at hsame ⊢
  rw [hfirst, Token.significant_append, hsame, List.append_assoc]

end Layout

/-- The token that ends a line. -/
def Token.lineBreak (text : List Char) : Token := ⟨.newline, text, none⟩

/-- A printed line: the blanks that it starts with, its tokens and its line break. -/
structure Line where
  blanks : List Char
  tokens : List Token
  ending : List Char

namespace Line

def text (line : Line) : List Char := line.blanks ++ Token.line line.tokens ++ line.ending

def width (line : Line) : Nat := Layout.blankWidth line.blanks

/-- The line is made of blanks and plain tokens whose brackets match. -/
structure Sound (line : Line) : Prop where
  blank : ∀ c ∈ line.blanks, Text.isBlank c = true
  nonempty : line.tokens ≠ []
  plain : ∀ token ∈ line.tokens, token.Plain
  balanced : Layout.nestAll 0 line.tokens = 0

def IsBreak (text : List Char) : Prop := text = ['\n'] ∨ text = ['\r', '\n']

/-- All lines end with a line break; the last one may lack it. -/
def Ended : List Line → Prop
  | [] => True
  | [line] => line.ending = [] ∨ IsBreak line.ending
  | line :: lines => IsBreak line.ending ∧ Ended lines

/-- The significant tokens of lines after which all blocks are closed. -/
def allTokens (blocks : List Nat) : List Line → List Token
  | [] => blocks.map fun _ => Token.dedent
  | line :: lines =>
    Token.significant (Layout.reindent line.width blocks).1 ++ line.tokens ++
      Token.lineBreak line.ending :: allTokens (Layout.reindent line.width blocks).2 lines

theorem Ended.tail {line : Line} {lines : List Line} (h : Ended (line :: lines)) :
    Ended lines := by
  cases lines with
  | nil => trivial
  | cons next lines => exact h.2

private theorem apart_ending {line : Line} {lines : List Line} (h : Ended (line :: lines)) :
    Lexeme.Apart (line.ending ++ lines.flatMap text) := by
  have hbreak {ending rest : List Char} (h : IsBreak ending) : Lexeme.Apart (ending ++ rest) := by
    rcases h with rfl | rfl
    · exact Lexeme.apart_cons rfl _
    · exact Lexeme.apart_cons rfl _
  cases lines with
  | nil =>
    rcases h with hnone | hsome
    · rw [hnone]
      exact Lexeme.apart_nil
    · exact hbreak hsome
  | cons next lines => exact hbreak h.1

private theorem placeAll_blanks {line : Line} (h : line.Sound) (blocks : List Nat)
    (rest : List Char) :
    Token.significant (Layout.placeAll ⟨blocks, 0, true, 0⟩
        (Token.cut (line.blanks ++ (Token.line line.tokens ++ rest)))) =
      Token.significant (Layout.placeAll ⟨blocks, line.width, true, 0⟩
        (Token.cut (Token.line line.tokens ++ rest))) := by
  obtain ⟨blanks, tokens, ending⟩ := line
  obtain ⟨hblank, hnonempty, hplain, _⟩ := h
  cases blanks with
  | nil => rfl
  | cons c cs =>
    have hfirst : ∀ d others, Token.line tokens ++ rest = d :: others → Text.isBlank d = false := by
      cases tokens with
      | nil => exact absurd rfl hnonempty
      | cons token tokens => exact Token.line_not_blank (hplain token (by simp)) tokens rest
    have hcs : ∀ d ∈ cs, Text.isBlank d = true := fun d hmem => hblank d (by simp [hmem])
    have hcut := Token.cut_blank (hblank c (by simp)) hcs hfirst
    simp only [List.cons_append]
    rw [hcut, Layout.placeAll]
    have hplace : Layout.place ⟨blocks, 0, true, 0⟩ ⟨.blank, c :: cs, none⟩ =
        ([⟨.blank, c :: cs, none⟩], ⟨blocks, 0 + Layout.blankWidth (c :: cs), true, 0⟩) := rfl
    rw [hplace, List.cons_append, Token.significant_cons_trivia rfl, Nat.zero_add]
    rfl

private theorem placeAll_ending {line : Line} {lines : List Line} (h : Ended (line :: lines))
    (blocks : List Nat) (width : Nat) :
    Token.significant (Layout.placeAll ⟨blocks, width, false, 0⟩
        (Token.cut (line.ending ++ lines.flatMap text))) =
      Token.lineBreak line.ending :: Token.significant
        (Layout.placeAll ⟨blocks, 0, true, 0⟩ (Token.cut (lines.flatMap text))) := by
  have hbreak {ending rest : List Char} (h : IsBreak ending) :
      Token.significant (Layout.placeAll ⟨blocks, width, false, 0⟩ (Token.cut (ending ++ rest))) =
        Token.lineBreak ending :: Token.significant
          (Layout.placeAll ⟨blocks, 0, true, 0⟩ (Token.cut rest)) := by
    have hcut : Token.cut (ending ++ rest) = Token.lineBreak ending :: Token.cut rest := by
      rcases h with rfl | rfl
      · have hmeasure : Lexeme.measure '\n' ([] ++ rest) = (.lineBreak, 0) := rfl
        exact Token.cut_cons hmeasure
      · have hmeasure : Lexeme.measure '\r' (['\n'] ++ rest) = (.lineBreak, 1) := rfl
        exact Token.cut_cons hmeasure
    rw [hcut, Layout.placeAll]
    exact Token.significant_cons_solid rfl _
  cases lines with
  | nil =>
    rcases h with hnone | hsome
    · rw [hnone, List.nil_append, List.flatMap_nil, Token.cut_nil]
      exact Token.significant_cons_solid rfl _
    · exact hbreak hsome
  | cons next lines => exact hbreak h.1

private theorem significant_dedents (blocks : List Nat) :
    Token.significant (blocks.map fun _ => Token.dedent) = blocks.map fun _ => Token.dedent := by
  rw [Token.significant, List.filter_eq_self]
  intro token hmem
  obtain ⟨_, _, rfl⟩ := List.mem_map.mp hmem
  rfl

/-- The significant tokens of printed lines. -/
theorem significant_lines {lines : List Line} (h : ∀ line ∈ lines, line.Sound)
    (hended : Ended lines) (blocks : List Nat) :
    Token.significant (Layout.placeAll ⟨blocks, 0, true, 0⟩ (Token.cut (lines.flatMap text))) =
      allTokens blocks lines := by
  induction lines generalizing blocks with
  | nil =>
    rw [List.flatMap_nil, Token.cut_nil]
    exact significant_dedents blocks
  | cons line lines ih =>
    have hline := h line (by simp)
    have hlines := ih (fun other hmem => h other (by simp [hmem])) hended.tail
      (Layout.reindent line.width blocks).2
    have hsolid : ∀ token ∈ line.tokens, Layout.Solid token :=
      fun token hmem => (hline.plain token hmem).kind
    rw [List.flatMap_cons, text, List.append_assoc, List.append_assoc, placeAll_blanks hline,
      Token.cut_line hline.plain (apart_ending hended)]
    cases htokens : line.tokens with
    | nil => exact absurd htokens hline.nonempty
    | cons token tokens =>
      have hbalanced := hline.balanced
      rw [htokens] at hsolid hbalanced
      rw [Layout.placeAll_first hsolid, hbalanced, placeAll_ending hended, hlines, allTokens,
        htokens]

end Line

end Syntax

end QuantumScript
