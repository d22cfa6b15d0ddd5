import QuantumScript.Analysis
/-!
# Reports

A report tells a reader of one problem, under a header that says where it is. More characters than
the line feed end a line here, and a line that ends the text is not followed by an empty one.
-/

namespace QuantumScript

namespace Text

/-- The characters that end a line for a reader. -/
def isLineEnd (c : Char) : Bool :=
  c = '\n' || c = '\r' || c = '\x0b' || c = '\x0c' || c = '\u0085' || c = '\u2028' || c = '\u2029'

/-- The character ends a line that something follows. A carriage return before a line feed ends a
line only together with it. -/
def endsLine (c : Char) (rest : List Char) : Bool :=
  isLineEnd c && !rest.isEmpty && !(c = '\r' && rest.head? = some '\n')

/-- Goes on from a place over a number of characters. -/
def advance (place : LineColumn) : Nat → List Char → LineColumn
  | 0, _ => place
  | _ + 1, [] => place
  | n + 1, c :: rest =>
    if endsLine c rest then advance ⟨place.line + 1, 0⟩ n rest
    else advance ⟨place.line, place.column + 1⟩ n rest

/-- Number of characters before a byte offset: all of them past the end, and none if the offset lies
within a character. -/
def charsBefore (offset : Nat) (text : List Char) : Nat :=
  match takeBytes? (min offset (byteLength text)) text with
  | some before => before.length
  | none => 0

/-- Characters of a text that stand together, from `start` up to, not including, `stop`. -/
structure Stretch where
  start : Nat
  stop : Nat
  deriving DecidableEq, Repr

/-- The characters that are marked for a span of the text. Where the span holds none the character after
it is marked, if there is one. -/
def marked (text : List Char) (span : Span) : Stretch :=
  let start := charsBefore span.start text
  let stop := charsBefore span.stop text
  if start < stop || text.length ≤ start then ⟨start, stop⟩ else ⟨start, start + 1⟩

@[simp] theorem start_marked (text : List Char) (span : Span) :
    (marked text span).start = charsBefore span.start text := by
  unfold marked
  dsimp only
  split <;> rfl

end Text

structure Report where
  path : String
  marked : Text.Stretch
  /-- Where the marked characters start. -/
  place : Text.LineColumn
  message : String
  deriving DecidableEq, Repr

namespace Report

/-- Path, line and column. Here the columns are counted from one, too. -/
def header (report : Report) : String :=
  s!"{report.path}:{report.place.line}:{report.place.column + 1}"

end Report

namespace Source

/-- The report of a problem at a span of the source. -/
def report (source : Source) (message : String) (span : Span) : Report :=
  let marked := Text.marked source.text span
  ⟨source.path, marked, Text.advance ⟨1, 0⟩ marked.start source.text, message⟩

/-- The reports of the syntax errors. -/
def syntaxReports (source : Source) : List Report :=
  source.parsed.errors.map fun error => source.report error.message error.span

end Source

/-- The reports of all that the analysis found. -/
def Analysis.reports (analysis : Analysis) : List Report :=
  analysis.diagnostics.map fun diagnostic =>
    analysis.source.report diagnostic.message diagnostic.span

end QuantumScript
