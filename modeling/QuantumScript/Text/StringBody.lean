/-!
# Bodies of string literals

The body of a string literal is what stands between its quotes, the marks before them left out.
-/

namespace QuantumScript

namespace Text

/-- The delimiters of strings, longer ones first. -/
def delimiters : List (List Char) :=
  [['"', '"', '"'], ['\'', '\'', '\''], ['"'], ['\'']]

/-- The text starts and ends with the delimiter, the two not sharing a character. -/
def isDelimited (text delimiter : List Char) : Bool :=
  2 * delimiter.length ≤ text.length && delimiter.isPrefixOf text && delimiter.isSuffixOf text

/-- The text between the first delimiter that encloses it. Text that is not enclosed stays as it is,
without its marks. -/
def stringBody (literal : List Char) : List Char :=
  let text := literal.dropWhile Char.isAlpha
  match delimiters.find? (isDelimited text) with
  | some delimiter =>
    (text.drop delimiter.length).take (text.length - 2 * delimiter.length)
  | none => text

end Text

end QuantumScript
