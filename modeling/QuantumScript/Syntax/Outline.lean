import QuantumScript.Syntax.Grammar
import QuantumScript.Text.Quoted
/-!
# Outlines

An outline shows a tree with one line for each node and token, indented by depth, and then one line
for each error.
-/

namespace QuantumScript

/-- A span as its start and stop with two points between. -/
def Span.written (span : Span) : String := s!"{span.start}..{span.stop}"

namespace Syntax

namespace Outline

/-- Texts from this many bytes on are shown shortened. -/
def longText : Nat := 25

/-- The least number of bytes that a shortened text keeps. -/
def keptBytes : Nat := 21

/-- The text of a token as it is shown. Of a long text only the characters are left that are needed
to reach `keptBytes`. -/
def excerpt (text : List Char) : List Char :=
  if Text.byteLength text < longText then text
  else
    match [0, 1, 2, 3].findSome? fun more => Text.takeBytes? (keptBytes + more) text with
    | some kept => kept ++ [' ', '.', '.', '.']
    | none => text

def line (depth : Nat) (kind : String) (span : Span) (text : String) : String :=
  "".pushn ' ' (2 * depth) ++ kind ++ "@" ++ span.written ++ text ++ "\n"

mutual

/-- The lines of a tree that starts at an offset. -/
def lines (depth offset : Nat) : Tree → String
  | .token kind text =>
    line depth kind.written ⟨offset, offset + Text.byteLength text⟩
      (" " ++ String.ofList (Text.quote (excerpt text)))
  | .node kind children =>
    line depth kind.written ⟨offset, offset + Tree.byteLengthAll children⟩ "" ++
      linesAll (depth + 1) offset children

def linesAll (depth offset : Nat) : List Tree → String
  | [] => ""
  | tree :: trees =>
    lines depth offset tree ++ linesAll depth (offset + tree.byteLength) trees

end

end Outline

/-- The tree and the errors of a parsed source as text. -/
def Parsed.outline (parsed : Parsed) : String :=
  Outline.lines 0 0 parsed.tree ++
    String.join (parsed.errors.map fun error =>
      "error " ++ error.span.written ++ ": " ++ error.message ++ "\n")

end Syntax

end QuantumScript
