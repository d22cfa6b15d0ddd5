import QuantumScript.Position
import QuantumScript.Syntax.Error
/-!
# Diagnostics

A diagnostic tells the user of one cause for concern and where it is. Names of types that are not
known are warnings, all else is an error.
-/

namespace QuantumScript

inductive Severity
  | error
  | warning
  deriving DecidableEq, Repr

def Severity.written : Severity → String
  | .error => "Error"
  | .warning => "Warning"

/-- What the analysis of a well-formed script can find. -/
inductive Finding
  | undefinedSymbol (name : String)
  | unknownMethod (method receiver : String)
  | arityMismatch (callee : String) (least most given : Nat)
  | argumentTypeMismatch (index : Nat) (callee expected found : String)
  | unknownType (name : String)
  deriving DecidableEq, Repr

namespace Finding

def severity : Finding → Severity
  | .unknownType _ => .warning
  | _ => .error

def message : Finding → String
  | .undefinedSymbol name => s!"Symbol {name} is not defined"
  | .unknownMethod method receiver => s!"Method {method} is not defined for {receiver}"
  | .arityMismatch callee least most given =>
    let expected := if least = most then s!"{least}" else s!"between {least} and {most}"
    let plural := if most = 1 then "argument" else "arguments"
    s!"{callee} expects {expected} {plural}, got {given}"
  | .argumentTypeMismatch index callee expected found =>
    s!"Argument {index} of {callee} should be of type {expected}, found {found}"
  | .unknownType name => s!"Type {name} is not defined"

end Finding

inductive Cause
  | syntactic (message : String)
  | semantic (finding : Finding)
  deriving DecidableEq, Repr

structure Diagnostic where
  cause : Cause
  span : Span
  position : Position
  deriving DecidableEq, Repr

namespace Diagnostic

def severity (diagnostic : Diagnostic) : Severity :=
  match diagnostic.cause with
  | .syntactic _ => .error
  | .semantic finding => finding.severity

def message (diagnostic : Diagnostic) : String :=
  match diagnostic.cause with
  | .syntactic message => message
  | .semantic finding => finding.message

def written (diagnostic : Diagnostic) : String :=
  s!"{diagnostic.severity.written} {diagnostic.position.written}: {diagnostic.message}"

def ofFinding (finding : Finding) (site : Site) : Diagnostic :=
  ⟨.semantic finding, site.span, site.position⟩

/-- Two messages about syntax are put into other words: one about a closing parenthesis, and any
that speaks of an unexpected indent. -/
def reword (text : Option (List Char)) (message : String) : String :=
  if text = some [')'] then "Expecting arguments before symbol )"
  else if Text.occurs "unexpected indent".toList message.toList then "Unexpected indentation"
  else message

/-- Position of a syntax error. It takes at least one column, and no more if it goes on beyond its
first line. -/
def syntacticPosition (index : Text.LineIndex) (span : Span) : Position :=
  let start := index.lineColumn span.start
  let stop := index.lineColumn span.stop
  let column := if stop.line = start.line then stop.column else start.column
  ⟨start.line - 1, start.column, max column (start.column + 1)⟩

/-- The diagnostic of a message about the syntax of a source. -/
def syntactic (source : List Char) (index : Text.LineIndex) (message : String) (span : Span) :
    Diagnostic :=
  ⟨.syntactic (reword (Text.slice? span.start span.stop source) message), span,
    syntacticPosition index span⟩

end Diagnostic

end QuantumScript
