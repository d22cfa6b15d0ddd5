import QuantumScript.Builtins
import QuantumScript.Folding
import QuantumScript.Hoisting
import QuantumScript.Inference.Statements
import QuantumScript.Source
/-!
# Analysis

The whole way of a script: it is parsed and folded, its top level is declared, and it is walked.
Nothing in a script makes the analysis fail. All that is found is a diagnostic.
-/

namespace QuantumScript

structure Analysis where
  source : Source
  folded : List FoldedStatement
  /-- Those of the syntax, then those of hoisting, then those of inference. -/
  diagnostics : List Diagnostic
  /-- The table with all scopes that were ever opened. -/
  table : SymbolTable
  uses : List Use

namespace Analysis

/-- Analyses a source, starting from a table. -/
def ofSource (source : Source) (initial : SymbolTable) : Analysis :=
  let hoisted := Hoisting.run source.index source.script initial
  let inferred := Inference.State.ofScript source.index source.script hoisted
  { source
    folded := Folding.script source.index source.script
    diagnostics :=
      source.diagnostics ++ Hoisting.warnings source.index source.script hoisted ++
        inferred.diagnostics
    table := inferred.table
    uses := inferred.uses }

def anySyntaxErrors (analysis : Analysis) : Bool := !analysis.source.parsed.errors.isEmpty

/-- Warnings alone do not count. -/
def anyErrors (analysis : Analysis) : Bool :=
  analysis.diagnostics.any fun diagnostic => diagnostic.severity = .error

end Analysis

end QuantumScript
