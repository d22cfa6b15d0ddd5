/-!
# Types of symbols

A type is primitive, a class or a function. Signatures name the types of parameters and results;
the names are resolved where they are used, so a class may be named before it is declared.
-/

namespace QuantumScript

inductive Primitive
  | int | float | complex | str | bool | list | dict | none
  /-- Anything at all. Names about which nothing is known have this type. -/
  | object
  deriving DecidableEq, Repr

namespace Primitive

def all : List Primitive :=
  [.int, .float, .complex, .str, .bool, .list, .dict, .none, .object]

/-- The type as it is written in a script. -/
def name : Primitive → String
  | .int => "int"
  | .float => "float"
  | .complex => "complex"
  | .str => "str"
  | .bool => "bool"
  | .list => "list"
  | .dict => "dict"
  | .none => "None"
  | .object => "object"

def ofName? (name : String) : Option Primitive := all.find? fun kind => kind.name = name

end Primitive

/-- A parameter without a type accepts anything. -/
structure ParameterSpec where
  name : String
  typeName : Option String
  optional : Bool
  deriving DecidableEq, Repr

structure Signature where
  name : String
  parameters : List ParameterSpec
  returns : Option String
  /-- Any number of arguments of any type is accepted. -/
  variadic : Bool
  deriving DecidableEq, Repr

namespace Signature

/-- A signature that takes nothing and tells nothing of its result. -/
def named (name : String) : Signature := ⟨name, [], none, false⟩

/-- The first parameter of the given name, with its index. -/
def parameter? (signature : Signature) (name : String) : Option (Nat × ParameterSpec) :=
  let index := signature.parameters.findIdx fun parameter => parameter.name = name
  signature.parameters[index]?.map fun parameter => (index, parameter)

/-- Least number of arguments. -/
def required (signature : Signature) : Nat :=
  (signature.parameters.filter fun parameter => !parameter.optional).length

/-- Greatest number of arguments, unless the signature is variadic. -/
def allowed (signature : Signature) : Nat := signature.parameters.length

end Signature

structure ClassType where
  name : String
  members : List Signature
  deriving DecidableEq, Repr

namespace ClassType

/-- The first member of the given name. -/
def member? (type : ClassType) (name : String) : Option Signature :=
  type.members.find? fun member => member.name = name

def constructor? (type : ClassType) : Option Signature := type.member? "__init__"

/-- The signature that making an instance has: that of the constructor under the name of the
class. -/
def construction? (type : ClassType) : Option Signature :=
  type.constructor?.map fun signature =>
    { signature with name := type.name, returns := some type.name }

/-- The class of the elements of a register. -/
def elementName? (register : String) : Option String :=
  if register = "QuantumRegister" then some "Qubit"
  else if register = "ClassicalRegister" then some "Clbit"
  else none

end ClassType

inductive SymbolType
  | primitive (kind : Primitive)
  /-- A class, or an instance of the class. -/
  | classType (type : ClassType)
  | function (signature : Signature)
  deriving DecidableEq, Repr

namespace SymbolType

/-- The type of which nothing is known. -/
def any : SymbolType := .primitive .object

/-- The name of the type in messages. -/
def name : SymbolType → String
  | .primitive kind => kind.name
  | .classType type => type.name
  | .function signature => signature.name

def isAny (type : SymbolType) : Bool := type = any

def class? : SymbolType → Option ClassType
  | .classType type => some type
  | _ => none

/-- Primitive types that may be given for one another: whole numbers are numbers too. -/
def widens (given expected : Primitive) : Bool :=
  given = expected || (given = .int && (expected = .float || expected = .complex))

/-- A value of the given type may be passed where the expected one is declared. A register may be
passed for one of its elements. -/
def isCompatible (given expected : SymbolType) : Bool :=
  if expected.isAny || given.isAny then true
  else
    match given, expected with
    | .primitive own, .primitive want => widens own want
    | .classType own, .classType want =>
      own.name = want.name || ClassType.elementName? own.name = some want.name
    | _, _ => false

end SymbolType

end QuantumScript
