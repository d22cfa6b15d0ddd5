import QuantumScript.Position
import QuantumScript.Text.StringBody
import QuantumScript.Types
/-!
# Declarations

What definitions declare is read off their syntax alone: signatures, classes and their members, and
the type hints that were written. Names of types are left to be resolved later.
-/

namespace QuantumScript

open Text (LineIndex)

/-- A type named in a hint, and where. -/
structure Hint where
  typeName : String
  site : Site
  deriving DecidableEq, Repr

namespace Ast

def Trailer.isAttribute : Trailer → Bool
  | .attribute _ _ => true
  | _ => false

def Trailer.isCall : Trailer → Bool
  | .arguments _ _ => true
  | _ => false

/-- The name of an access to an attribute. -/
def Trailer.attributeText : Trailer → Option String
  | .attribute _ name => name.bind Name.text
  | _ => none

namespace Expr

/-- The type that a hint names. A string names the type in it, a dotted path its last component, and
a type applied to arguments is named without them. -/
def typeName? : Expr → Option String
  | .name part => part.text
  | .literal _ tokens =>
    tokens.head?.bind fun leaf =>
      match leaf.kind with
      | .quoted => some (String.ofList (Text.stringBody leaf.text.toList))
      | .keyword .noneWord => some "None"
      | _ => none
  | .chain _ atom trailers =>
    if trailers.all Trailer.isAttribute then trailers.getLast?.bind Trailer.attributeText
    else
      match atom with
      | some atom => typeName? atom
      | none => none
  | _ => none

/-- The type of a literal, told by its first token. -/
def literalType? (tokens : List Leaf) : Option SymbolType :=
  tokens.head?.bind fun leaf =>
    match leaf.kind with
    | .integer => some (.primitive .int)
    | .float => some (.primitive .float)
    | .imaginary => some (.primitive .complex)
    | .quoted => some (.primitive .str)
    | .keyword .trueWord | .keyword .falseWord => some (.primitive .bool)
    | .keyword .noneWord => some (.primitive .none)
    | _ => none

/-- The type of a value that needs no names: a literal, a number with signs, a list or a
dictionary. -/
def constantType? : Expr → Option SymbolType
  | .literal _ tokens => literalType? tokens
  | .unary _ operator operand =>
    match operand with
    | some operand =>
      if operator = some (.keyword .notWord) then none else constantType? operand
    | none => none
  | .list _ _ => some (.primitive .list)
  | .dictionary _ _ => some (.primitive .dict)
  | _ => none

/-- The name that a plain name is. -/
def plainName? : Expr → Option String
  | .name part => part.text
  | _ => none

mutual

/-- The names that a target binds: itself, or those in it if it is a list of targets. -/
def boundLeaves : Expr → List Leaf
  | .name part => part.ident.toList
  | .expressionList _ items => boundLeavesOf items
  | .list _ items => boundLeavesOf items
  | .parenthesized _ inner =>
    match inner with
    | some inner => boundLeaves inner
    | none => []
  | _ => []

def boundLeavesOf : List Expr → List Leaf
  | [] => []
  | target :: rest => boundLeaves target ++ boundLeavesOf rest

end

end Expr

/-- The hint that a part holds, if it names a type. -/
def Holder.hint? (index : LineIndex) (holder : Holder) : Option Hint :=
  holder.value.bind fun value =>
    value.typeName?.map fun typeName => ⟨typeName, index.partSite value.extent⟩

def Holder.typeName? (holder : Holder) : Option String := holder.value.bind Expr.typeName?

namespace Parameter

def text (parameter : Parameter) : Option String := parameter.name.bind Name.text

def typeName? (parameter : Parameter) : Option String := parameter.hint.bind Holder.typeName?

/-- A parameter with a default value is optional. A variadic one is none of the parameters that are
counted, and neither is one without a name. -/
def spec? (parameter : Parameter) : Option ParameterSpec :=
  if parameter.variadic then none
  else
    parameter.text.map fun name => ⟨name, parameter.typeName?, parameter.default.isSome⟩

/-- The parameter stands for the value that a method is called on. -/
def isReceiver (parameter : Parameter) : Bool :=
  !parameter.variadic && parameter.text = some "self"

/-- Leaves out the receiver of a method. -/
def withoutReceiver (isMethod : Bool) : List Parameter → List Parameter
  | [] => []
  | first :: rest => if isMethod && first.isReceiver then rest else first :: rest

end Parameter

/-- The parameters of a definition; none if it has no list of them. -/
def parametersOf (parameters : Option Parameters) : List Parameter :=
  (parameters.map Parameters.items).getD []

/-- The signature of a function that has a name. -/
def signature? (isMethod : Bool) (name : Option Name) (parameters : Option Parameters)
    (returns : Option Holder) : Option Signature :=
  (name.bind Name.text).map fun name =>
    let items := parametersOf parameters
    ⟨name, (Parameter.withoutReceiver isMethod items).filterMap Parameter.spec?,
      returns.bind Holder.typeName?, items.any Parameter.variadic⟩

/-- The hints that belong to a signature: those of the parameters that are counted, then that of the
result. -/
def signatureHints (index : LineIndex) (isMethod : Bool) (name : Option Name)
    (parameters : Option Parameters) (returns : Option Holder) : List Hint :=
  if (name.bind Name.text).isSome then
    let counted := (Parameter.withoutReceiver isMethod (parametersOf parameters)).filter
      fun parameter => parameter.spec?.isSome
    counted.filterMap (fun parameter => parameter.hint.bind (Holder.hint? index)) ++
      (returns.bind (Holder.hint? index)).toList
  else []

namespace Statement

/-- The signature of a statement that defines a method. -/
def method? : Statement → Option Signature
  | .function _ _ name parameters returns _ => signature? true name parameters returns
  | _ => none

/-- The hints of a statement that defines a method. -/
def methodHints (index : LineIndex) : Statement → List Hint
  | .function _ _ name parameters returns _ => signatureHints index true name parameters returns
  | _ => []

end Statement

/-- The statements of a body; none if there is no body. -/
def statementsOf : Option Suite → List Statement
  | some ⟨_, statements⟩ => statements
  | none => []

/-- The class that a definition with a name declares. Its members are the functions that stand
directly in its body. -/
def classType? (name : Option Name) (body : Option Suite) : Option ClassType :=
  (name.bind Name.text).map fun name => ⟨name, (statementsOf body).filterMap Statement.method?⟩

/-- The hints that belong to the members of a class. -/
def classHints (index : LineIndex) (name : Option Name) (body : Option Suite) : List Hint :=
  if (name.bind Name.text).isSome then (statementsOf body).flatMap (Statement.methodHints index)
  else []

/-- The arguments that a class is derived from. -/
def basesOf (bases : Option Arguments) : List Argument :=
  (bases.map Arguments.items).getD []

end Ast

namespace ClassType

/-- Adds a member unless there is one of its name. -/
def addMember (type : ClassType) (member : Signature) : ClassType :=
  if (type.member? member.name).isSome then type
  else { type with members := type.members ++ [member] }

/-- Adds the members of the bases that are classes. Own members and those of earlier bases come
first. -/
def inherit (type : ClassType) (bases : List SymbolType) : ClassType :=
  (bases.filterMap SymbolType.class?).foldl
    (fun type base => base.members.foldl addMember type) type

@[simp] theorem name_addMember (type : ClassType) (member : Signature) :
    (type.addMember member).name = type.name := by
  unfold addMember
  split <;> rfl

/-- A class keeps its own name, whatever it inherits. -/
@[simp] theorem name_inherit (type : ClassType) (bases : List SymbolType) :
    (type.inherit bases).name = type.name := by
  have hmembers (members : List Signature) (type : ClassType) :
      (members.foldl addMember type).name = type.name := by
    induction members generalizing type with
    | nil => rfl
    | cons member rest ih => rw [List.foldl_cons, ih, name_addMember]
  unfold inherit
  induction bases.filterMap SymbolType.class? generalizing type with
  | nil => rfl
  | cons base rest ih => rw [List.foldl_cons, ih, hmembers]

end ClassType

end QuantumScript
