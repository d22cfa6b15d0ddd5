import Mathlib
import QuantumScript.Proofs.Lexing.Breaks
import QuantumScript.Proofs.Parsing.Respelled
/-!
# Spellings of line ends

A text whose lines end with a carriage return and a line feed is laid out and parsed like the text whose
lines end with the line feed alone, but for the strings that are cut off differently and for a backslash that
joins lines before anything else stands on the first of them. There the characters of the line break are
counted with the width of the line.
-/

namespace QuantumScript

namespace Syntax

private theorem feed_not_mem_of_word {text : List Char} {lexeme : Lexeme} (h : lexeme ∈ Lexeme.ofText text)
    (hkind : lexeme.kind = .word) : '\n' ∉ lexeme.text := by
  have hword := (Lexeme.isIdentifier_iff lexeme.text).mpr ⟨lexeme, (Lexeme.ofText_text_of_mem h).2, hkind⟩
  cases htext : lexeme.text with
  | nil => exact List.not_mem_nil
  | cons c cs =>
    rw [htext, Text.isIdentifier, Bool.and_eq_true, List.all_eq_true] at hword
    intro hmem
    rcases List.mem_cons.mp hmem with rfl | hmem
    · cases hword.1
    · cases hword.2 _ hmem

namespace Token

/-- The token in the text with carriage returns. -/
abbrev withReturns : Token → Token := mapText Text.withReturns

private theorem ofLexeme_withReturns {lexeme : Lexeme} (h : lexeme.kind = .word → '\n' ∉ lexeme.text) :
    ofLexeme lexeme.withReturns = (ofLexeme lexeme).withReturns := by
  obtain ⟨kind, text⟩ := lexeme
  cases kind with
  | word =>
    rw [Lexeme.withReturns, Text.withReturns_line (h rfl)]
    unfold ofLexeme
    dsimp only
    have hsame : Text.withReturns text = text := Text.withReturns_line (h rfl)
    cases Keyword.ofText? text <;> exact congrArg (fun text => Token.mk _ text none) hsame.symm
  | _ => rfl

end Token

namespace Layout

open Token

private theorem map_withReturns_edges {tokens : List Token} (h : tokens.flatMap Token.text = []) :
    tokens.map withReturns = tokens := by
  refine (List.map_congr_left fun token hmem => ?_).trans (List.map_id tokens)
  have htext := List.flatMap_eq_nil_iff.mp h token hmem
  obtain ⟨kind, text, flaw⟩ := token
  obtain rfl : text = [] := htext
  rfl

/-- A token of the text is placed alike in both spellings, unless it is a joined line at the start of a
line. -/
private theorem place_withReturns {layout : Layout} {token : Token}
    (h : token.kind = .blank → layout.atLineStart = true → '\n' ∉ token.text) :
    layout.place token.withReturns = ((layout.place token).1.map withReturns, (layout.place token).2) := by
  obtain ⟨kind, text, flaw⟩ := token
  obtain ⟨blocks, width, fresh, brackets⟩ := layout
  have hedges := map_withReturns_edges (flatMap_text_reindent width blocks)
  cases kind with
  | blank =>
    cases fresh with
    | true =>
      have htext : Text.withReturns text = text := Text.withReturns_line (h rfl rfl)
      simp only [place, withReturns, Token.mapText, htext, List.map_cons, List.map_nil]
    | false => rfl
  | newline =>
    by_cases hsilent : (0 < brackets || fresh) = true <;>
      simp [place, withReturns, Token.mapText, hsilent]
  | comment => rfl
  | _ =>
    cases fresh with
    | true => simp [place, withReturns, Token.mapText, hedges]
    | false => rfl

/-- No line is joined to another by a backslash before anything else stands on it. -/
def joinsWithin (layout : Layout) : List Lexeme → Bool
  | [] => true
  | lexeme :: lexemes =>
    !(layout.atLineStart && lexeme.kind = .blank && lexeme.text.contains '\n') &&
      joinsWithin (layout.step lexeme).2 lexemes

private theorem tokens_withReturns {layout : Layout} {lexemes : List Lexeme}
    (hwords : ∀ lexeme ∈ lexemes, lexeme.kind = .word → '\n' ∉ lexeme.text)
    (h : layout.joinsWithin lexemes = true) :
    layout.tokens (lexemes.map Lexeme.withReturns) = (layout.tokens lexemes).map withReturns := by
  induction lexemes generalizing layout with
  | nil => exact (map_withReturns_edges (flatMap_text_finish layout)).symm
  | cons lexeme lexemes ih =>
    obtain ⟨hfirst, hlater⟩ := Bool.and_eq_true_iff.mp h
    have hplain : (ofLexeme lexeme).kind = .blank → layout.atLineStart = true →
        '\n' ∉ (ofLexeme lexeme).text := by
      intro hkind hstart hmem
      have hblank : lexeme.kind = .blank := by
        obtain ⟨kind, text⟩ := lexeme
        cases kind with
        | blank => rfl
        | word =>
          unfold ofLexeme at hkind
          dsimp only at hkind
          split at hkind <;> cases hkind
        | literal form => cases form <;> cases hkind
        | _ => cases hkind
      rw [text_ofLexeme] at hmem
      simp [hstart, hblank, hmem] at hfirst
    have hstep : layout.step lexeme.withReturns =
        ((layout.step lexeme).1.map withReturns, (layout.step lexeme).2) := by
      have hplace := place_withReturns hplain
      rw [← ofLexeme_withReturns (hwords lexeme (by simp))] at hplace
      exact hplace
    have hrest := ih (fun other hmem => hwords other (by simp [hmem])) hlater
    rw [List.map_cons, tokens, hstep, tokens, List.map_append, ← hrest]

end Layout

section Texts

variable {text : List Char}

theorem Token.ofText_withReturns (hreturn : '\r' ∉ text)
    (hstrings : (Lexeme.ofText text).any Lexeme.holdsFeed = false)
    (hjoins : Layout.start.joinsWithin (Lexeme.ofText text) = true) :
    ofText (Text.withReturns text) = (ofText text).map withReturns := by
  rw [ofText, Lexeme.ofText_withReturns hreturn hstrings,
    Layout.tokens_withReturns (fun _ hmem => feed_not_mem_of_word hmem) hjoins]
  rfl

private theorem tree_parse_withReturns (hreturn : '\r' ∉ text)
    (hstrings : (Lexeme.ofText text).any Lexeme.holdsFeed = false)
    (hjoins : Layout.start.joinsWithin (Lexeme.ofText text) = true) :
    (parse (Text.withReturns text)).tree = (parse text).tree.mapText Text.withReturns := by
  simp only [parse]
  rw [Token.ofText_withReturns hreturn hstrings hjoins, parts_parseTokens_mapText, Tree.mapText,
    Tree.mapTexts_eq_map, List.map_reverse]

/-- Line ends may be spelled with a carriage return. The kinds of lexemes are the same unless a string between
single quotes holds a line feed, and the kinds of tokens and the shape of the tree are the same unless a line
besides is joined to another before anything else stands on it. -/
theorem kinds_withReturns (hreturn : '\r' ∉ text)
    (hstrings : (Lexeme.ofText text).any Lexeme.holdsFeed = false) :
    (Lexeme.ofText (Text.withReturns text)).map Lexeme.kind = (Lexeme.ofText text).map Lexeme.kind ∧
    (Layout.start.joinsWithin (Lexeme.ofText text) = true →
      (Token.ofText (Text.withReturns text)).map Token.kind = (Token.ofText text).map Token.kind ∧
      (parse (Text.withReturns text)).tree.shape = (parse text).tree.shape) := by
  refine ⟨?_, fun hjoins => ⟨?_, ?_⟩⟩
  · rw [Lexeme.ofText_withReturns hreturn hstrings, List.map_map]
    rfl
  · rw [Token.ofText_withReturns hreturn hstrings hjoins, List.map_map]
    rfl
  · rw [tree_parse_withReturns hreturn hstrings hjoins, Tree.shape_mapText]

/-- A block with a line that is joined to another, a call over two lines and a string over two lines. -/
theorem kinds_withReturns_block :
    (Token.ofText (Text.withReturns "if a:\n b \\\n  (c,\n\"\"\"d\n\"\"\")\n".toList)).map Token.kind =
      (Token.ofText "if a:\n b \\\n  (c,\n\"\"\"d\n\"\"\")\n".toList).map Token.kind ∧
    (parse (Text.withReturns "if a:\n b \\\n  (c,\n\"\"\"d\n\"\"\")\n".toList)).tree.shape =
      (parse "if a:\n b \\\n  (c,\n\"\"\"d\n\"\"\")\n".toList).tree.shape :=
  (kinds_withReturns (by decide) (by cbv)).2 (by cbv)

/-- A backslash before anything else on a line makes it wider by one if the line feed has a carriage return. -/
example :
    (Token.ofText "if a:\n   b\n \\\nc\n".toList).map Token.kind =
      [.keyword .ifWord, .blank, .name, .symbol .colon, .newline, .blank, .indent, .name, .newline,
        .blank, .blank, .name, .newline, .dedent] ∧
    (Token.ofText (Text.withReturns "if a:\n   b\n \\\nc\n".toList)).map Token.kind =
      [.keyword .ifWord, .blank, .name, .symbol .colon, .newline, .blank, .indent, .name, .newline,
        .blank, .blank, .indent, .name, .newline, .dedent, .dedent] := by
  constructor <;> cbv

end Texts

end Syntax

end QuantumScript
