import QuantumScript.SymbolTable
/-!
# Builtins

What every script may use without binding it: the primitive types, functions and classes of the
language, and the classes of the quantum toolkit. All of it is bound on line zero, above every
script.
-/

namespace QuantumScript

namespace Builtins

def line : Nat := 0

def typed (name typeName : String) : ParameterSpec := ⟨name, some typeName, false⟩

def optional (name typeName : String) : ParameterSpec := ⟨name, some typeName, true⟩

def method (name : String) (parameters : List ParameterSpec) (returns : Option String) :
    Signature :=
  ⟨name, parameters, returns, false⟩

/-- A function whose arguments are not checked. -/
def unchecked (name : String) (returns : Option String) : Signature := ⟨name, [], returns, true⟩

def oneQubitGate (name : String) : Signature := method name [typed "qubit" "Qubit"] none

def rotationGate (name : String) (angles : List String) : Signature :=
  method name (angles.map (typed · "float") ++ [typed "qubit" "Qubit"]) none

def quantumProgram : ClassType :=
  ⟨"QuantumProgram",
    [ method "__init__" [optional "specs" "dict"] none,
      method "create_quantum_register" [typed "name" "str", typed "size" "int"]
        (some "QuantumRegister"),
      method "create_classical_register" [typed "name" "str", typed "size" "int"]
        (some "ClassicalRegister"),
      method "create_circuit" [typed "name" "str", typed "qregs" "list", typed "cregs" "list"]
        (some "QuantumCircuit"),
      method "get_circuit" [typed "name" "str"] (some "QuantumCircuit"),
      method "get_quantum_register" [typed "name" "str"] (some "QuantumRegister"),
      method "get_classical_register" [typed "name" "str"] (some "ClassicalRegister"),
      method "get_qasm" [typed "name" "str"] (some "str"),
      method "set_api" [typed "token" "str", typed "url" "str"] none,
      method "available_backends" [] (some "list"),
      unchecked "compile" (some "dict"),
      unchecked "execute" (some "Result") ]⟩

def quantumCircuit : ClassType :=
  ⟨"QuantumCircuit",
    [ unchecked "__init__" none,
      method "cx" [typed "control" "Qubit", typed "target" "Qubit"] none,
      method "cz" [typed "control" "Qubit", typed "target" "Qubit"] none,
      method "ccx" [typed "control1" "Qubit", typed "control2" "Qubit", typed "target" "Qubit"]
        none,
      method "measure" [typed "qubit" "Qubit", typed "cbit" "Clbit"] none,
      unchecked "barrier" none,
      method "add" [typed "circuit" "QuantumCircuit"] none,
      method "qasm" [] (some "str") ] ++
    ["h", "x", "y", "z", "s", "sdg", "t", "tdg", "iden", "reset"].map oneQubitGate ++
    [ rotationGate "rx" ["theta"],
      rotationGate "ry" ["theta"],
      rotationGate "rz" ["phi"],
      rotationGate "u1" ["theta"],
      rotationGate "u2" ["phi", "lam"],
      rotationGate "u3" ["theta", "phi", "lam"] ]⟩

def result : ClassType :=
  ⟨"Result",
    [ method "get_counts" [optional "name" "str"] (some "dict"),
      method "get_data" [optional "name" "str"] (some "dict"),
      method "get_ran_qasm" [typed "name" "str"] (some "str"),
      method "get_names" [] (some "list") ]⟩

/-- A class that is known only to be constructed, with any arguments. -/
def constructed (name : String) : ClassType := ⟨name, [unchecked "__init__" none]⟩

def exceptions : List String :=
  ["BaseException", "Exception", "ArithmeticError", "AssertionError", "AttributeError",
    "FileNotFoundError", "ImportError", "IndexError", "KeyError", "KeyboardInterrupt",
    "NotImplementedError", "OSError", "RuntimeError", "StopIteration", "TypeError", "ValueError"]

def classes : List ClassType :=
  [quantumProgram, constructed "QuantumRegister", constructed "ClassicalRegister", quantumCircuit,
    ⟨"Qubit", []⟩, ⟨"Clbit", []⟩, result] ++
  exceptions.map constructed

def uncheckedFunctions : List String :=
  ["abs", "all", "any", "classmethod", "enumerate", "filter", "getattr", "hasattr", "input",
    "isinstance", "iter", "map", "max", "min", "next", "open", "property", "repr", "reversed",
    "round", "set", "setattr", "sorted", "staticmethod", "sum", "super", "tuple", "type", "zip"]

def functions : List Signature :=
  [ unchecked "print" none,
    method "len" [⟨"obj", none, false⟩] (some "int"),
    unchecked "range" (some "list"),
    unchecked "execute" (some "Result") ] ++
  uncheckedFunctions.map (unchecked · none)

/-- All builtins in the order in which they are bound. The toolkit itself is of unknown type. -/
def bindings : List Binding :=
  Primitive.all.map (fun kind => ⟨kind.name, .primitive kind, line⟩) ++
  functions.map (fun signature => ⟨signature.name, .function signature, line⟩) ++
  classes.map (fun type => ⟨type.name, .classType type, line⟩) ++
  [⟨"__name__", .primitive .str, line⟩, ⟨"qiskit", .any, line⟩]

end Builtins

namespace SymbolTable

/-- Binds all builtins in the current scope. -/
def defineBuiltins (table : SymbolTable) : SymbolTable :=
  Builtins.bindings.foldl define table

/-- The table whose global scope holds the builtins. -/
def withBuiltins : SymbolTable := empty.defineBuiltins

/-- The table that an analysis starts from. -/
def initial (builtins : Bool) : SymbolTable := if builtins then withBuiltins else empty

end SymbolTable

end QuantumScript
