import QuantumScript.Position
import QuantumScript.Diagnostic
import QuantumScript.Syntax.Reading
/-!
# Sources

A source is a text together with what is made of it before it is analysed: the tree, the abstract
syntax and the lines.
-/

namespace QuantumScript

structure Source where
  path : String
  text : List Char
  parsed : Syntax.Parsed
  script : Ast.Script
  index : Text.LineIndex

namespace Source

/-- The path that stands for a text from nowhere. -/
def nowhere : String := "no file"

def ofText (path : Option String) (text : List Char) : Source :=
  let parsed := Syntax.parse text
  ⟨path.getD nowhere, text, parsed, .ofTree parsed.tree, .ofText text⟩

/-- The source in a file, unless its bytes are no text in UTF-8. -/
def ofBytes? (path : String) (bytes : ByteArray) : Option Source :=
  (String.fromUTF8? bytes).map fun text => ofText (some path) text.toList

/-- The diagnostics of the syntax errors. -/
def diagnostics (source : Source) : List Diagnostic :=
  source.parsed.errors.map fun error =>
    .syntactic source.text source.index error.message error.span

end Source

end QuantumScript
