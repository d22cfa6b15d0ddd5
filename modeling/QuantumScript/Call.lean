import QuantumScript.Diagnostic
import QuantumScript.SymbolTable
/-!
# Checking calls

The arguments of a call are compared with the signature of what is called. A wrong number of
arguments is told once, at the name of the callee, and then the types are not looked at.
-/

namespace QuantumScript

/-- An argument of a call, as far as it matters. The type is absent if it is not known. -/
structure CallArgument where
  type : Option SymbolType
  site : Site
  keyword : Option String
  unpacked : Bool
  deriving DecidableEq, Repr

namespace Signature

/-- The number of arguments that the signature cannot take. Calls with unpacked arguments and
variadic signatures take any number. -/
def arityProblem? (signature : Signature) (arguments : List CallArgument) : Option Finding :=
  let given := arguments.length
  if signature.variadic || arguments.any CallArgument.unpacked then none
  else if given < signature.required || signature.allowed < given then
    some (.arityMismatch signature.name signature.required signature.allowed given)
  else none

/-- The problem of one argument with the parameter of the given index. -/
def typeProblem? (signature : Signature) (table : SymbolTable) (argument : CallArgument)
    (entry : Nat × ParameterSpec) : Option Diagnostic :=
  match argument.type, entry.2.typeName.bind table.resolveType? with
  | some found, some expected =>
    if found.isCompatible expected then none
    else
      some (.ofFinding (.argumentTypeMismatch (entry.1 + 1) signature.name expected.name found.name)
        argument.site)
  | _, _ => none

/-- The parameter that an argument is for: the one of its keyword, else the one of its rank among
the arguments without a keyword. -/
def parameterFor? (signature : Signature) (rank : Nat) (argument : CallArgument) :
    Option (Nat × ParameterSpec) :=
  match argument.keyword with
  | some keyword => signature.parameter? keyword
  | none => signature.parameters[rank]?.map fun parameter => (rank, parameter)

/-- The problems of the types of arguments, `rank` arguments without a keyword standing before
them. Unpacked arguments are passed over. -/
def typeProblems (signature : Signature) (table : SymbolTable) (rank : Nat) :
    List CallArgument → List Diagnostic
  | [] => []
  | argument :: rest =>
    if argument.unpacked then typeProblems signature table rank rest
    else
      let problem :=
        (signature.parameterFor? rank argument).bind (signature.typeProblem? table argument)
      let next := if argument.keyword.isSome then rank else rank + 1
      problem.toList ++ typeProblems signature table next rest

/-- All that is wrong with a call made at `site`. -/
def check (signature : Signature) (table : SymbolTable) (site : Site)
    (arguments : List CallArgument) : List Diagnostic :=
  match signature.arityProblem? arguments with
  | some finding => [.ofFinding finding site]
  | none => signature.typeProblems table 0 arguments

end Signature

end QuantumScript
