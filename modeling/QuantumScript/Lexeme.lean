import QuantumScript.Text.Identifier
/-!
# Lexemes

A source text is cut into lexemes: the pieces that mean something on their own, before line ends
and indentation are looked at. Every character belongs to exactly one lexeme.
-/

namespace QuantumScript

/-- Operators and punctuation. All assignments that combine with an operator are one symbol. -/
inductive Symbol
  | semicolon | comma | dot
  | leftParen | rightParen | leftBrace | rightBrace | leftBracket | rightBracket
  | at | tilde | colon | equals | bang | less | greater | minus | ampersand | bar
  | plus | star | slash | caret | percent
  | arrow | doubleStar | doubleSlash | equality | inequality | lessEqual | greaterEqual
  | shiftLeft | shiftRight | augmented
  deriving DecidableEq, Repr

/-- Radix of an integer literal. -/
inductive Radix
  | binary | octal | decimal | hexadecimal
  deriving DecidableEq, Repr

def Radix.value : Radix → Nat
  | .binary => 2
  | .octal => 8
  | .decimal => 10
  | .hexadecimal => 16

/-- What is known of a literal once its extent is known. The flags tell of a literal that breaks
off early. -/
inductive LiteralForm
  | integer (radix : Radix) (digitless : Bool)
  | float (exponentless : Bool)
  | imaginary
  | quoted (terminated triple : Bool)
  deriving DecidableEq, Repr

namespace Lexeme

inductive Kind
  | comment
  | blank
  | lineBreak
  | word
  | literal (form : LiteralForm)
  | symbol (symbol : Symbol)
  | unknown
  deriving DecidableEq, Repr

end Lexeme

/-- A piece of source text with its kind. -/
structure Lexeme where
  kind : Lexeme.Kind
  text : List Char
  deriving DecidableEq, Repr

namespace Lexeme

open Text

/-- Number of leading characters that satisfy `p`. -/
def countWhile (p : Char → Bool) (cs : List Char) : Nat :=
  (cs.takeWhile p).length

/-- The first character satisfies `p`. -/
def headIs (p : Char → Bool) : List Char → Bool
  | [] => false
  | c :: _ => p c

def isQuote (c : Char) : Bool := c = '"' || c = '\''

/-- Letters that may stand before the opening quote of a string. -/
def isStringMark (c : Char) : Bool :=
  c = 'r' || c = 'R' || c = 'b' || c = 'B' || c = 'u' || c = 'U' || c = 'f' || c = 'F'

def isHexDigit (c : Char) : Bool :=
  c.isDigit || ('a' ≤ c && c ≤ 'f') || ('A' ≤ c && c ≤ 'F')

/-- Whether a run of digits and underscores at the front holds a digit, and the length of the
run. -/
def digits (isDigit : Char → Bool) (cs : List Char) : Bool × Nat :=
  let run := cs.takeWhile fun c => c = '_' || isDigit c
  (run.any isDigit, run.length)

/-- The spellings of the symbols, longer ones first. -/
def symbolSpellings : List (List Char × Symbol) :=
  [ (['*', '*', '='], .augmented), (['/', '/', '='], .augmented),
    (['<', '<', '='], .augmented), (['>', '>', '='], .augmented),
    (['-', '>'], .arrow), (['-', '='], .augmented),
    (['*', '*'], .doubleStar), (['*', '='], .augmented),
    (['/', '/'], .doubleSlash), (['/', '='], .augmented),
    (['=', '='], .equality), (['!', '='], .inequality),
    (['<', '='], .lessEqual), (['<', '<'], .shiftLeft),
    (['>', '='], .greaterEqual), (['>', '>'], .shiftRight),
    (['+', '='], .augmented), (['%', '='], .augmented), (['&', '='], .augmented),
    (['|', '='], .augmented), (['^', '='], .augmented), (['@', '='], .augmented),
    (['-'], .minus), (['*'], .star), (['/'], .slash), (['='], .equals), (['!'], .bang),
    (['<'], .less), (['>'], .greater), (['+'], .plus), (['%'], .percent), (['&'], .ampersand),
    (['|'], .bar), (['^'], .caret), (['@'], .at), ([';'], .semicolon), ([','], .comma),
    (['.'], .dot), (['('], .leftParen), ([')'], .rightParen), (['{'], .leftBrace),
    (['}'], .rightBrace), (['['], .leftBracket), ([']'], .rightBracket), (['~'], .tilde),
    ([':'], .colon) ]

/-- The longest symbol that the text starts with, and its length. -/
def symbol? (cs : List Char) : Option (Symbol × Nat) :=
  (symbolSpellings.find? fun entry => entry.1.isPrefixOf cs).map fun entry =>
    (entry.2, entry.1.length)

/-- Adds `n` to the length of a measured piece. -/
def lengthen {α : Type} (n : Nat) (piece : α × Nat) : α × Nat := (piece.1, piece.2 + n)

/-- The rest of a string after one opening quote: whether it is closed, and its length. It ends
before a line break; a backslash takes the next character with it. -/
def singleQuoted (quote : Char) : List Char → Bool × Nat
  | [] => (false, 0)
  | c :: cs =>
    if c = quote then (true, 1)
    else if c = '\\' then
      match cs with
      | [] => (false, 1)
      | _ :: rest => lengthen 2 (singleQuoted quote rest)
    else if c = '\n' || c = '\r' then (false, 0)
    else lengthen 1 (singleQuoted quote cs)

/-- The rest of a string after three opening quotes, `run` quotes having just been read. -/
def tripleQuoted (quote : Char) (run : Nat) : List Char → Bool × Nat
  | [] => (false, 0)
  | c :: cs =>
    if c = '\\' then
      match cs with
      | [] => (false, 1)
      | _ :: rest => lengthen 2 (tripleQuoted quote 0 rest)
    else if c = quote then
      if run = 2 then (true, 1) else lengthen 1 (tripleQuoted quote (run + 1) cs)
    else lengthen 1 (tripleQuoted quote 0 cs)

/-- A string whose first quote has been read. -/
def quoted (quote : Char) (cs : List Char) : LiteralForm × Nat :=
  match cs with
  | a :: b :: rest =>
    if a = quote && b = quote then
      let (terminated, n) := tripleQuoted quote 0 rest
      (.quoted terminated true, n + 2)
    else
      let (terminated, n) := singleQuoted quote cs
      (.quoted terminated false, n)
  | _ =>
    let (terminated, n) := singleQuoted quote cs
    (.quoted terminated false, n)

/-- An exponent whose letter is at the front. -/
def exponent (cs : List Char) : LiteralForm × Nat :=
  let afterLetter := cs.drop 1
  let sign := if headIs (fun c => c = '+' || c = '-') afterLetter then 1 else 0
  let (found, n) := digits Char.isDigit (afterLetter.drop sign)
  (.float !found, n + sign + 1)

/-- The exponent at the front if there is one, else `form`. -/
def exponentOr (form : LiteralForm) (cs : List Char) : LiteralForm × Nat :=
  if headIs (fun c => c = 'e' || c = 'E') cs then exponent cs else (form, 0)

/-- A number whose digits and exponent have been measured becomes imaginary by a `j` after it. -/
def imaginaryOr (number : LiteralForm × Nat) (cs : List Char) : LiteralForm × Nat :=
  if headIs (fun c => c = 'j' || c = 'J') (cs.drop number.2) then (.imaginary, number.2 + 1)
  else number

/-- The radix that a letter after a leading zero selects. -/
def radix? : Char → Option Radix
  | 'b' => some .binary
  | 'B' => some .binary
  | 'o' => some .octal
  | 'O' => some .octal
  | 'x' => some .hexadecimal
  | 'X' => some .hexadecimal
  | _ => none

def isDigitOf (radix : Radix) (c : Char) : Bool :=
  match radix with
  | .hexadecimal => isHexDigit c
  | _ => c.isDigit

/-- A decimal number after its first digit. A point belongs to it unless another point or an
identifier follows, as in an attribute access. -/
def decimal (cs : List Char) : LiteralForm × Nat :=
  let whole := (digits Char.isDigit cs).2
  let afterWhole := cs.drop whole
  let number :=
    match afterWhole with
    | '.' :: rest =>
      if headIs (fun c => c = '.' || isIdentifierStart c) rest then
        (.integer .decimal false, whole)
      else
        let fraction := (digits Char.isDigit rest).2
        lengthen (whole + 1 + fraction) (exponentOr (.float false) (rest.drop fraction))
    | _ => lengthen whole (exponentOr (.integer .decimal false) afterWhole)
  imaginaryOr number cs

/-- A number that starts with the digit `c`. -/
def number (c : Char) (cs : List Char) : LiteralForm × Nat :=
  match cs with
  | letter :: rest =>
    match (if c = '0' then radix? letter else none) with
    | some radix =>
      let (found, n) := digits (isDigitOf radix) rest
      (.integer radix !found, n + 1)
    | none => decimal cs
  | [] => decimal cs

/-- A number whose leading point has been read; a digit is at the front. -/
def pointed (cs : List Char) : LiteralForm × Nat :=
  let fraction := (digits Char.isDigit cs).2
  imaginaryOr (lengthen fraction (exponentOr (.float false) (cs.drop fraction))) cs

/-- A string with its marks, `c` being the first of them. -/
def markedString? (c : Char) (cs : List Char) : Option (LiteralForm × Nat) :=
  if isStringMark c then
    match cs with
    | [] => none
    | q :: rest =>
      if isQuote q then some (lengthen 1 (quoted q rest))
      else
        match rest with
        | [] => none
        | r :: rest =>
          if isStringMark q && isQuote r then some (lengthen 2 (quoted r rest)) else none
  else none

/-- Length of the line break at the front, if there is one. -/
def lineBreak? : List Char → Option Nat
  | '\n' :: _ => some 1
  | '\r' :: '\n' :: _ => some 2
  | _ => none

/-- Blanks, comments and line breaks. A backslash before a line break joins two lines and counts
as a blank. -/
def filler? (c : Char) (cs : List Char) : Option (Kind × Nat) :=
  if c = '#' then some (.comment, countWhile (fun d => !(d = '\n' || d = '\r')) cs)
  else if c = '\n' then some (.lineBreak, 0)
  else if c = '\r' then (if headIs (· = '\n') cs then some (.lineBreak, 1) else none)
  else if c = '\\' then (lineBreak? cs).map fun n => (.blank, n)
  else if isBlank c then some (.blank, countWhile isBlank cs)
  else none

/-- Names and literals. -/
def operand? (c : Char) (cs : List Char) : Option (Kind × Nat) :=
  if isIdentifierStart c then
    match markedString? c cs with
    | some (form, n) => some (.literal form, n)
    | none => some (.word, countWhile isIdentifierPart cs)
  else if c.isDigit then
    let (form, n) := number c cs
    some (.literal form, n)
  else if c = '.' && headIs Char.isDigit cs then
    let (form, n) := pointed cs
    some (.literal form, n)
  else if isQuote c then
    let (form, n) := quoted c cs
    some (.literal form, n)
  else none

/-- Kind of the lexeme that starts with `c`, and how many of the following characters belong
to it. -/
def measure (c : Char) (cs : List Char) : Kind × Nat :=
  match filler? c cs with
  | some piece => piece
  | none =>
    match operand? c cs with
    | some piece => piece
    | none =>
      match symbol? (c :: cs) with
      | some (symbol, n) => (.symbol symbol, n - 1)
      | none => (.unknown, 0)

/-- Cuts a text into its lexemes. -/
def ofText : List Char → List Lexeme
  | [] => []
  | c :: cs =>
    let (kind, n) := measure c cs
    ⟨kind, c :: cs.take n⟩ :: ofText (cs.drop n)
  termination_by text => text.length

/-- No character is lost, added or moved. -/
theorem flatMap_text_ofText (text : List Char) : (ofText text).flatMap Lexeme.text = text := by
  fun_induction ofText text with
  | case1 => rfl
  | case2 c cs kind n _ ih => simp [ih]

end Lexeme

end QuantumScript
