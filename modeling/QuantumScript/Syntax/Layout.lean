import QuantumScript.Syntax.Kind
import QuantumScript.Text.Span
/-!
# Layout

The layout of a script is made explicit: the end of a logical line becomes a token of its own, and
a change of indentation becomes empty tokens that open and close blocks. Line breaks within
brackets, on blank lines and after a comment that stands alone are blanks. The tokens hold the text
of the script and nothing else.
-/

namespace QuantumScript

namespace Syntax

/-- What can be wrong with a single token. -/
inductive Flaw
  | missingDigits
  | missingExponentDigits
  | openTripleString
  | openString
  | unknownCharacter
  | unmatchedUnindent
  deriving DecidableEq, Repr

def Flaw.message : Flaw → String
  | .missingDigits => "Missing digits after the integer base prefix"
  | .missingExponentDigits => "Missing digits after the exponent symbol"
  | .openTripleString => "Missing trailing quotes to terminate the triple-quoted string literal"
  | .openString => "Missing trailing quote to terminate the string literal"
  | .unknownCharacter => "Unknown character"
  | .unmatchedUnindent => "unindent does not match any outer indentation level"

structure Token where
  kind : TokenKind
  text : List Char
  flaw : Option Flaw
  deriving DecidableEq, Repr

/-- Tokens after which a line break within them is a blank. -/
def TokenKind.opens : TokenKind → Bool
  | .symbol .leftParen | .symbol .leftBracket | .symbol .leftBrace => true
  | _ => false

def TokenKind.closes : TokenKind → Bool
  | .symbol .rightParen | .symbol .rightBracket | .symbol .rightBrace => true
  | _ => false

namespace Token

def isTrivia (token : Token) : Bool := token.kind.isTrivia

/-- Token kind of a literal. -/
def literalKind : LiteralForm → TokenKind
  | .integer _ _ => .integer
  | .float _ => .float
  | .imaginary => .imaginary
  | .quoted _ _ => .quoted

/-- The flaw of a literal that breaks off early. -/
def literalFlaw : LiteralForm → Option Flaw
  | .integer _ digitless => if digitless then some .missingDigits else none
  | .float exponentless => if exponentless then some .missingExponentDigits else none
  | .imaginary => none
  | .quoted terminated triple =>
    if terminated then none else if triple then some .openTripleString else some .openString

/-- The token of a lexeme, its place in the layout aside. -/
def ofLexeme (lexeme : Lexeme) : Token :=
  match lexeme.kind with
  | .comment => ⟨.comment, lexeme.text, none⟩
  | .blank => ⟨.blank, lexeme.text, none⟩
  | .lineBreak => ⟨.newline, lexeme.text, none⟩
  | .word =>
    match Keyword.ofText? lexeme.text with
    | some keyword => ⟨.keyword keyword, lexeme.text, none⟩
    | none => ⟨.name, lexeme.text, none⟩
  | .literal form => ⟨literalKind form, lexeme.text, literalFlaw form⟩
  | .symbol symbol => ⟨.symbol symbol, lexeme.text, none⟩
  | .unknown => ⟨.unknown, lexeme.text, some .unknownCharacter⟩

theorem text_ofLexeme (lexeme : Lexeme) : (ofLexeme lexeme).text = lexeme.text := by
  unfold ofLexeme
  split <;> try rfl
  split <;> rfl

/-- No lexeme opens or closes a block by itself. -/
theorem kind_ofLexeme (lexeme : Lexeme) :
    (ofLexeme lexeme).kind ∉ [.indent, .dedent, .endOfInput] := by
  unfold ofLexeme
  split
  · simp
  · simp
  · simp
  · split <;> simp
  · rename_i form _
    cases form <;> simp [literalKind]
  · simp
  · simp

def indent : Token := ⟨.indent, [], none⟩

def dedent : Token := ⟨.dedent, [], none⟩

def strayIndent : Token := ⟨.indent, [], some .unmatchedUnindent⟩

def lineEnd : Token := ⟨.newline, [], none⟩

end Token

/-- What the tokens so far say about the layout. -/
structure Layout where
  /-- Widths of the open blocks, innermost first. -/
  blocks : List Nat
  /-- Width of the blanks at the start of the line. -/
  width : Nat
  /-- Nothing but blanks and comments has been seen on the logical line. -/
  atLineStart : Bool
  /-- Number of open brackets. -/
  brackets : Nat
  deriving DecidableEq, Repr

namespace Layout

def start : Layout := ⟨[], 0, true, 0⟩

/-- Width of the innermost open block; the outermost level has width 0. -/
def level (blocks : List Nat) : Nat := blocks.headD 0

/-- A tabulator goes on to the next multiple of eight, any other character takes one column. -/
def widen (width : Nat) (c : Char) : Nat :=
  if c = '\t' then (width / 8 + 1) * 8 else width + 1

/-- Width of blanks measured from the start of the line. -/
def blankWidth (text : List Char) : Nat := text.foldl widen 0

/-- Closes blocks wider than `width`. The line opens a block of its own if it is wider than the
level reached. -/
def unindent (width : Nat) : List Nat → List Token × List Nat
  | [] => if width = 0 then ([], []) else ([Token.strayIndent], [width])
  | block :: blocks =>
    if width < block then
      let (tokens, left) := unindent width blocks
      (Token.dedent :: tokens, left)
    else if width = block then ([], block :: blocks)
    else ([Token.strayIndent], width :: block :: blocks)

/-- Compares a line that starts with the open blocks. -/
def reindent (width : Nat) (blocks : List Nat) : List Token × List Nat :=
  if level blocks < width then ([Token.indent], width :: blocks) else unindent width blocks

/-- Bracket depth after a token. A closing bracket too many is ignored. -/
def nest (brackets : Nat) (kind : TokenKind) : Nat :=
  if kind.opens then brackets + 1 else if kind.closes then brackets - 1 else brackets

/-- The tokens of one more lexeme. -/
def step (layout : Layout) (lexeme : Lexeme) : List Token × Layout :=
  let token := Token.ofLexeme lexeme
  match token.kind with
  | .blank =>
    let width := if layout.atLineStart then layout.width + blankWidth token.text else layout.width
    ([token], { layout with width })
  | .comment => ([token], layout)
  | .newline =>
    let silent := 0 < layout.brackets || layout.atLineStart
    ([if silent then { token with kind := .blank } else token],
      { layout with width := 0, atLineStart := layout.atLineStart || layout.brackets = 0 })
  | kind =>
    let (opening, blocks) :=
      if layout.atLineStart then reindent layout.width layout.blocks else ([], layout.blocks)
    (opening ++ [token],
      { layout with blocks, atLineStart := false, brackets := nest layout.brackets kind })

/-- The tokens that end the last line and close all blocks. -/
def finish (layout : Layout) : List Token :=
  (if layout.atLineStart then [] else [Token.lineEnd]) ++ layout.blocks.map fun _ => Token.dedent

/-- The tokens of the lexemes that follow a beginning with the given layout. -/
def tokens (layout : Layout) : List Lexeme → List Token
  | [] => layout.finish
  | lexeme :: lexemes =>
    let (opening, next) := layout.step lexeme
    opening ++ tokens next lexemes

theorem flatMap_text_unindent (width : Nat) (blocks : List Nat) :
    (unindent width blocks).1.flatMap Token.text = [] := by
  induction blocks with
  | nil => unfold unindent; split <;> rfl
  | cons block blocks ih =>
    unfold unindent
    split
    · simpa [Token.dedent] using ih
    · split <;> rfl

theorem flatMap_text_reindent (width : Nat) (blocks : List Nat) :
    (reindent width blocks).1.flatMap Token.text = [] := by
  unfold reindent
  split
  · rfl
  · exact flatMap_text_unindent width blocks

theorem flatMap_text_step (layout : Layout) (lexeme : Lexeme) :
    (layout.step lexeme).1.flatMap Token.text = lexeme.text := by
  unfold step
  dsimp only
  split
  · simp [Token.text_ofLexeme]
  · simp [Token.text_ofLexeme]
  · split <;> simp [Token.text_ofLexeme]
  · split <;> simp [flatMap_text_reindent, Token.text_ofLexeme]

theorem flatMap_text_finish (layout : Layout) : layout.finish.flatMap Token.text = [] := by
  unfold finish
  split <;> simp [Token.lineEnd, Token.dedent]

theorem flatMap_text_tokens (layout : Layout) (lexemes : List Lexeme) :
    (layout.tokens lexemes).flatMap Token.text = lexemes.flatMap Lexeme.text := by
  induction lexemes generalizing layout with
  | nil => simpa [tokens] using flatMap_text_finish layout
  | cons lexeme lexemes ih => simp [tokens, ih, flatMap_text_step]

end Layout

/-- The tokens of a source text, its layout made explicit. -/
def Token.ofText (text : List Char) : List Token :=
  Layout.start.tokens (Lexeme.ofText text)

/-- The layout adds and takes away no character. -/
theorem Token.flatMap_text_ofText (text : List Char) :
    (Token.ofText text).flatMap Token.text = text := by
  simp [Token.ofText, Layout.flatMap_text_tokens, Lexeme.flatMap_text_ofText]

end Syntax

end QuantumScript
