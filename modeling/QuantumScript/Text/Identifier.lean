import QuantumScript.Text.IdentifierRanges
/-!
# Characters of identifiers and blanks

An identifier starts with an underscore or a character of XID_Start and goes on with characters of
XID_Continue. Blanks are the four characters that separate tokens without ending a line.
-/

namespace QuantumScript.Text

/-- Tabulator, vertical tab, form feed and space. -/
def isBlank (c : Char) : Bool :=
  c = '\t' || c = '\x0b' || c = '\x0c' || c = ' '

/-- Membership in a list of inclusive ranges of code points. -/
def inRanges (ranges : List (Nat × Nat)) (c : Char) : Bool :=
  ranges.any fun range => range.1 ≤ c.toNat && c.toNat ≤ range.2

/-- An underscore, or a character of XID_Start. -/
def isIdentifierStart (c : Char) : Bool :=
  if c.toNat < 0x80 then c.isAlpha || c = '_' else inRanges startRanges c

/-- A character of XID_Continue. -/
def isIdentifierPart (c : Char) : Bool :=
  isIdentifierStart c || (if c.toNat < 0x80 then c.isDigit else inRanges partRanges c)

/-- One identifier start followed by identifier parts only. -/
def isIdentifier : List Char → Bool
  | [] => false
  | c :: cs => isIdentifierStart c && cs.all isIdentifierPart

theorem isIdentifierPart_of_start {c : Char} (h : isIdentifierStart c = true) :
    isIdentifierPart c = true := by
  simp [isIdentifierPart, h]

end QuantumScript.Text
