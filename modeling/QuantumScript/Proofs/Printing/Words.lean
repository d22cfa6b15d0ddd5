import QuantumScript.Proofs.Printing.Lexing
import QuantumScript.Proofs.Printing.Moves
/-!
# Words of a line

A plain token is one lexeme on its own. Plain tokens with a space between them are cut into these
tokens again, and so are the fixed spellings of symbols and keywords.
-/

namespace QuantumScript

/-- The first of the spellings of a symbol. -/
def Symbol.spelling (symbol : Symbol) : List Char :=
  ((Lexeme.symbolSpellings.find? fun entry => entry.2 = symbol).map Prod.fst).getD []

def Keyword.spelling (keyword : Keyword) : List Char :=
  ((Keyword.spellings.find? fun entry => entry.2 = keyword).map Prod.fst).getD []

namespace Syntax

namespace Token

def mark (symbol : Symbol) : Token := ⟨.symbol symbol, symbol.spelling, none⟩

def word (keyword : Keyword) : Token := ⟨.keyword keyword, keyword.spelling, none⟩

/-- The text of the token is one lexeme, and nothing is wrong with it. -/
def Plain (token : Token) : Prop :=
  ∃ c cs kind, token.text = c :: cs ∧ Lexeme.measure c cs = (kind, cs.length) ∧
    kind.isSolid = true ∧ ofLexeme ⟨kind, token.text⟩ = token ∧ token.flaw = none

theorem plain_mark (symbol : Symbol) : (mark symbol).Plain := by
  cases symbol <;> exact ⟨_, _, _, rfl, rfl, rfl, rfl, rfl⟩

theorem plain_word (keyword : Keyword) : (word keyword).Plain := by
  cases keyword <;> exact ⟨_, _, _, rfl, rfl, rfl, rfl, rfl⟩

/-- The tokens of a text, before line ends and indentation are looked at. -/
def cut (text : List Char) : List Token := (Lexeme.ofText text).map ofLexeme

theorem cut_nil : cut [] = [] := by
  rw [cut, Lexeme.ofText]
  rfl

theorem cut_cons {c : Char} {cs rest : List Char} {kind : Lexeme.Kind}
    (h : Lexeme.measure c (cs ++ rest) = (kind, cs.length)) :
    cut (c :: (cs ++ rest)) = ofLexeme ⟨kind, c :: cs⟩ :: cut rest := by
  rw [cut, Lexeme.ofText, h, List.map_cons, List.take_left, List.drop_left]
  rfl

private theorem cut_plain {token : Token} (h : token.Plain) {rest : List Char}
    (hrest : Lexeme.Apart rest) : cut (token.text ++ rest) = token :: cut rest := by
  obtain ⟨c, cs, kind, htext, hmeasure, hsolid, htoken, _⟩ := h
  rw [htext, List.cons_append, cut_cons (Lexeme.measure_append hrest hmeasure hsolid), ← htext,
    htoken]

private theorem Plain.not_blank {token : Token} (h : token.Plain) :
    ∃ c cs, token.text = c :: cs ∧ Text.isBlank c = false := by
  obtain ⟨c, cs, kind, htext, hmeasure, hsolid, _⟩ := h
  refine ⟨c, cs, htext, ?_⟩
  cases hblank : Text.isBlank c with
  | false => rfl
  | true =>
    have hfiller : Lexeme.filler? c cs = some (.blank, Lexeme.countWhile Text.isBlank cs) := by
      simp only [Text.isBlank, Bool.or_eq_true, decide_eq_true_eq] at hblank
      rcases hblank with ((rfl | rfl) | rfl) | rfl <;> rfl
    rw [Lexeme.measure, hfiller] at hmeasure
    obtain ⟨rfl, _⟩ := Prod.mk.inj hmeasure
    cases hsolid

/-- Kind of a plain token: it is seen by the grammar and does not carry the layout. -/
theorem Plain.kind {token : Token} (h : token.Plain) :
    token.kind.isTrivia = false ∧ token.kind ≠ .newline := by
  obtain ⟨c, cs, kind, _, _, hsolid, htoken, _⟩ := h
  rw [← htoken]
  unfold ofLexeme
  cases kind with
  | word => cases Keyword.ofText? token.text <;> exact ⟨rfl, nofun⟩
  | literal form => cases form <;> exact ⟨rfl, nofun⟩
  | symbol symbol => exact ⟨rfl, nofun⟩
  | _ => cases hsolid

theorem Plain.flaw {token : Token} (h : token.Plain) : token.flaw = none := by
  obtain ⟨_, _, _, _, _, _, _, hflaw⟩ := h
  exact hflaw

/-- Blanks at the front become one token. -/
theorem cut_blank {c : Char} {cs rest : List Char} (hc : Text.isBlank c = true)
    (hcs : ∀ d ∈ cs, Text.isBlank d = true)
    (hrest : ∀ d others, rest = d :: others → Text.isBlank d = false) :
    cut (c :: (cs ++ rest)) = ⟨.blank, c :: cs, none⟩ :: cut rest := by
  have hcount : Lexeme.countWhile Text.isBlank (cs ++ rest) = cs.length := by
    rw [Lexeme.countWhile]
    induction cs with
    | nil =>
      cases rest with
      | nil => rfl
      | cons d others =>
        rw [List.nil_append, List.takeWhile_cons_of_neg (by simp [hrest d others rfl])]
    | cons d cs ih =>
      rw [List.cons_append, List.takeWhile_cons_of_pos (hcs d (by simp)), List.length_cons,
        ih fun e hmem => hcs e (by simp [hmem])]
      rfl
  have hfiller : Lexeme.filler? c (cs ++ rest) =
      some (.blank, Lexeme.countWhile Text.isBlank (cs ++ rest)) := by
    simp only [Text.isBlank, Bool.or_eq_true, decide_eq_true_eq] at hc
    rcases hc with ((rfl | rfl) | rfl) | rfl <;> rfl
  have hmeasure : Lexeme.measure c (cs ++ rest) = (.blank, cs.length) := by
    rw [Lexeme.measure, hfiller, hcount]
  rw [cut_cons hmeasure]
  rfl

/-- The space between two tokens. -/
def gap : Token := ⟨.blank, [' '], none⟩

/-- Tokens with a space between them. -/
def spaced : List Token → List Token
  | [] => []
  | [token] => [token]
  | token :: tokens => token :: gap :: spaced tokens

/-- The texts of tokens with a space between them. -/
def line (tokens : List Token) : List Char := (spaced tokens).flatMap Token.text

theorem line_cons_cons (token next : Token) (tokens : List Token) :
    line (token :: next :: tokens) = token.text ++ ' ' :: line (next :: tokens) := rfl

theorem line_not_blank {token : Token} (h : token.Plain) (tokens : List Token)
    (rest : List Char) (d : Char) (others : List Char)
    (heq : line (token :: tokens) ++ rest = d :: others) : Text.isBlank d = false := by
  obtain ⟨c, cs, htext, hc⟩ := h.not_blank
  cases tokens with
  | nil =>
    rw [line, spaced, List.flatMap_cons, List.flatMap_nil, List.append_nil, htext] at heq
    obtain ⟨rfl, _⟩ := List.cons.inj heq
    exact hc
  | cons next tokens =>
    rw [line_cons_cons, htext] at heq
    obtain ⟨rfl, _⟩ := List.cons.inj heq
    exact hc

/-- A line of plain tokens is cut into these tokens and the spaces between them. -/
theorem cut_line {tokens : List Token} (h : ∀ token ∈ tokens, token.Plain) {rest : List Char}
    (hrest : Lexeme.Apart rest) : cut (line tokens ++ rest) = spaced tokens ++ cut rest := by
  induction tokens with
  | nil => rfl
  | cons token tokens ih =>
    have htoken := h token (by simp)
    have hothers : ∀ other ∈ tokens, other.Plain := fun other hmem => h other (by simp [hmem])
    cases tokens with
    | nil =>
      rw [line, spaced, List.flatMap_cons, List.flatMap_nil, List.append_nil,
        cut_plain htoken hrest]
      rfl
    | cons next tokens =>
      have hnext := hothers next (by simp)
      rw [line_cons_cons, List.append_assoc, List.cons_append,
        cut_plain htoken (Lexeme.apart_cons rfl _)]
      have hnone : ∀ d ∈ ([] : List Char), Text.isBlank d = true := nofun
      have hblank : cut (' ' :: (line (next :: tokens) ++ rest)) =
          gap :: cut (line (next :: tokens) ++ rest) :=
        cut_blank rfl hnone (line_not_blank hnext tokens rest)
      rw [hblank, ih hothers]
      rfl

end Token

end Syntax

end QuantumScript
