import QuantumScript.Syntax.Ast
import QuantumScript.Text.Lines
/-!
# Positions

A position shows a span to the user: the line counted from zero, and the columns on it. A span that
goes on beyond its first line is shown as one character.
-/

namespace QuantumScript

structure Position where
  line : Nat
  start : Nat
  stop : Nat
  deriving DecidableEq, Repr

def Position.written (position : Position) : String :=
  s!"{position.line}:{position.start}-{position.stop}"

/-- A piece of the source together with its place. -/
structure Site where
  text : String
  span : Span
  position : Position
  deriving DecidableEq, Repr

/-- Line counted from one. Symbols are bound at these lines. -/
def Site.line (site : Site) : Nat := site.position.line + 1

namespace Text.LineIndex

/-- Line of an offset counted from one. -/
def line (index : LineIndex) (offset : Nat) : Nat := (index.lineColumn offset).line

def position (index : LineIndex) (span : Span) : Position :=
  let start := index.lineColumn span.start
  let stop := index.lineColumn span.stop
  ⟨start.line - 1, start.column,
    if stop.line = start.line then stop.column else start.column + 1⟩

/-- The site of a token. -/
def leafSite (index : LineIndex) (leaf : Ast.Leaf) : Site :=
  ⟨leaf.text, leaf.span, index.position leaf.span⟩

/-- The site of a whole part. It stands for an argument or a hint, of which only the place is read: what is
found there tells the names of types and parameters by itself. So the text is left at that of the first token,
and the rest of the part is not written out. -/
def partSite (index : LineIndex) (extent : Ast.Extent) : Site :=
  ⟨(extent.first.map Ast.Leaf.text).getD "", extent.core, index.position extent.core⟩

/-- The site of the first token of a part. -/
def firstSite (index : LineIndex) (extent : Ast.Extent) : Site :=
  match extent.first with
  | some leaf => index.leafSite leaf
  | none => index.partSite extent

/-- Line on which a part starts. -/
def firstLine (index : LineIndex) (extent : Ast.Extent) : Nat := index.line extent.span.start

/-- Line on which the last significant token of a part ends. -/
def lastLine (index : LineIndex) (extent : Ast.Extent) : Nat := index.line extent.core.stop

end Text.LineIndex

end QuantumScript
