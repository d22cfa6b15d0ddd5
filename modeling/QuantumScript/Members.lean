import QuantumScript.SymbolTable
/-!
# Values, elements and members

What is known of a value derived from one of known type.
-/

namespace QuantumScript

/-- What is known about a member of a value. -/
inductive MemberLookup
  /-- The member is declared; its result has the type if that is known. -/
  | found (result : Option SymbolType)
  /-- The value is of a class without the member. -/
  | missing
  /-- Nothing is known about the members of the value. -/
  | unknown
  deriving DecidableEq, Repr

namespace SymbolTable

/-- The type of the value of a name. Naming a function stands for calling it. -/
def valueType? (table : SymbolTable) : SymbolType → Option SymbolType
  | .function signature =>
    match signature.returns with
    | some name => table.resolveType? name
    | none => some .any
  | type => some type

/-- The type of an element of a value: registers have known elements. -/
def elementType? (table : SymbolTable) : SymbolType → Option SymbolType
  | .classType type =>
    ((ClassType.elementName? type.name).bind table.lookupDeclared?).map fun record =>
      record.binding.type
  | .primitive .object => some .any
  | _ => none

/-- One access to a member of a value. -/
def member (table : SymbolTable) (receiver : SymbolType) (name : String) : MemberLookup :=
  match receiver with
  | .classType type =>
    match type.member? name with
    | some signature => .found (signature.returns.bind table.resolveType?)
    | none => .missing
  | _ => .unknown

end SymbolTable

end QuantumScript
