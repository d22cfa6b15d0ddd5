import QuantumScript.Types
/-!
# Symbol table

Every binding of a name is kept with its line, and closed scopes are kept with the lines that they
span. So the table answers what a name means now, and what it meant on any earlier line.
-/

namespace QuantumScript

/-- A name bound to a type at a line. -/
structure Binding where
  name : String
  type : SymbolType
  line : Nat
  deriving DecidableEq, Repr

/-- A region of the script: all of it, the body of a function or class, a lambda or a
comprehension. -/
structure Scope where
  name : String
  openedAt : Nat
  closedAt : Option Nat
  parent : Option Nat
  depth : Nat
  /-- Ordered by line; bindings of one line in the order of definition. -/
  bindings : List Binding
  deriving DecidableEq, Repr

namespace Scope

def isOpen (scope : Scope) : Bool := scope.closedAt.isNone

/-- The line lies between the lines where the scope was opened and closed, both included. -/
def containsLine (scope : Scope) (line : Nat) : Bool :=
  scope.openedAt ≤ line &&
    match scope.closedAt with
    | none => true
    | some closed => line ≤ closed

/-- All bindings of a name, oldest first. -/
def versions (scope : Scope) (name : String) : List Binding :=
  scope.bindings.filter fun binding => binding.name = name

/-- The last binding of a name that is made no later than `line`. -/
def latestAt (scope : Scope) (name : String) (line : Nat) : Option Binding :=
  ((scope.versions name).filter fun binding => binding.line ≤ line).getLast?

/-- Puts a binding behind all that are made no later than it. -/
def insertSorted (binding : Binding) : List Binding → List Binding
  | [] => [binding]
  | other :: rest =>
    if other.line ≤ binding.line then other :: insertSorted binding rest
    else binding :: other :: rest

/-- Adds a binding, unless the one that it would follow has the same line and type. -/
def insert (scope : Scope) (binding : Binding) : Scope :=
  match scope.latestAt binding.name binding.line with
  | some latest =>
    if latest.line = binding.line && latest.type = binding.type then scope
    else { scope with bindings := insertSorted binding scope.bindings }
  | none => { scope with bindings := insertSorted binding scope.bindings }

end Scope

/-- Why a request to the table fails. -/
inductive SymbolError
  | missingBinding
  | scopeUnderflow
  deriving DecidableEq, Repr

def SymbolError.message : SymbolError → String
  | .missingBinding => "no binding is visible for this name"
  | .scopeUnderflow => "the global scope cannot be closed"

/-- A binding with the scope that it was found in. -/
structure Record where
  binding : Binding
  scope : Nat
  level : Nat
  deriving DecidableEq, Repr

/-- A scope is named by its place in `scopes`, which only grows. -/
structure SymbolTable where
  scopes : List Scope
  /-- The open scopes inside the global one, innermost first. -/
  inner : List Nat
  /-- The line that the analysis has reached. -/
  position : Nat
  deriving DecidableEq, Repr

namespace SymbolTable

/-- The table that holds an empty global scope. -/
def empty : SymbolTable := ⟨[⟨"global", 0, none, none, 0, []⟩], [], 0⟩

/-- The open scopes, innermost first. The global scope is always open. -/
def live (table : SymbolTable) : List Nat := table.inner ++ [0]

/-- Number of open scopes. -/
def openCount (table : SymbolTable) : Nat := table.live.length

/-- The innermost open scope. -/
def current (table : SymbolTable) : Nat := table.inner.headD 0

def seek (table : SymbolTable) (line : Nat) : SymbolTable := { table with position := line }

/-- Moves on to a line unless it was reached before. -/
def reach (table : SymbolTable) (line : Nat) : SymbolTable :=
  table.seek (max table.position line)

/-- Opens a scope inside the current one. -/
def push (table : SymbolTable) (name : String) (line : Nat) : SymbolTable :=
  let scope : Scope := ⟨name, line, none, some table.current, table.openCount, []⟩
  ({ table with
    scopes := table.scopes ++ [scope], inner := table.scopes.length :: table.inner }).reach line

/-- Closes the current scope and names it. The global scope cannot be closed. -/
def pop (table : SymbolTable) (line : Nat) : Except SymbolError (Nat × SymbolTable) :=
  match table.inner with
  | [] => .error .scopeUnderflow
  | id :: outer =>
    let scopes := table.scopes.modify id fun scope => { scope with closedAt := some line }
    .ok (id, ({ table with scopes, inner := outer }).reach line)

/-- Binds a name in the current scope. -/
def define (table : SymbolTable) (binding : Binding) : SymbolTable :=
  let scopes := table.scopes.modify table.current fun scope => scope.insert binding
  ({ table with scopes }).reach binding.line

@[simp] theorem live_empty : empty.live = [0] := rfl

@[simp] theorem live_push (table : SymbolTable) (name : String) (line : Nat) :
    (table.push name line).live = table.scopes.length :: table.live := rfl

@[simp] theorem live_define (table : SymbolTable) (binding : Binding) :
    (table.define binding).live = table.live := rfl

@[simp] theorem live_seek (table : SymbolTable) (line : Nat) :
    (table.seek line).live = table.live := rfl

/-- The first scope of a stack for which `find` gives a binding. -/
def findIn (scopes : List Scope) (find : Scope → Option Binding) : List Nat → Option Record
  | [] => none
  | id :: outer =>
    match scopes[id]?.bind find with
    | some binding => some ⟨binding, id, outer.length⟩
    | none => findIn scopes find outer

/-- The latest visible binding of a name, from the innermost open scope outwards. -/
def lookup? (table : SymbolTable) (name : String) : Option Record :=
  findIn table.scopes (fun scope => scope.latestAt name table.position) table.live

/-- The earliest binding of a name, from the innermost open scope outwards, on whatever line. -/
def lookupDeclared? (table : SymbolTable) (name : String) : Option Record :=
  findIn table.scopes (fun scope => (scope.versions name).head?) table.live

/-- The visible binding of a name, or one that is made further down. -/
def resolve? (table : SymbolTable) (name : String) : Option Record :=
  (table.lookup? name).or (table.lookupDeclared? name)

/-- Of two numbered scopes the deeper one; of two of one depth the later one. -/
def deeper (best : Option (Nat × Scope)) (entry : Nat × Scope) : Option (Nat × Scope) :=
  match best with
  | none => some entry
  | some other => if other.2.depth ≤ entry.2.depth then some entry else best

/-- The innermost scope that contains a line. -/
def scopeAt? (table : SymbolTable) (line : Nat) : Option Nat :=
  let entries := table.scopes.zipIdx.map fun entry => (entry.2, entry.1)
  let within := entries.filter fun entry => entry.2.containsLine line
  (within.foldl deeper none).map Prod.fst

/-- Looks for a binding made no later than `line`, in a scope and then in those around it. A scope
stands after its parent. -/
def findOutwards (scopes : List Scope) (name : String) (line : Nat) (id : Nat) : Option Record :=
  match scopes[id]? with
  | none => none
  | some scope =>
    match scope.latestAt name line with
    | some binding => some ⟨binding, id, scope.depth⟩
    | none =>
      match scope.parent with
      | none => none
      | some parent => if parent < id then findOutwards scopes name line parent else none
  termination_by id

/-- The binding of a name that was visible on a line, in open and closed scopes. -/
def lookupAt? (table : SymbolTable) (name : String) (line : Nat) : Option Record :=
  (table.scopeAt? line).bind (findOutwards table.scopes name line)

/-- The type that a name stands for in a type hint. Primitive types need no binding. -/
def resolveType? (table : SymbolTable) (name : String) : Option SymbolType :=
  match Primitive.ofName? name with
  | some kind => some (.primitive kind)
  | none =>
    match table.resolve? name with
    | some ⟨⟨_, .classType type, _⟩, _, _⟩ => some (.classType type)
    | _ => none

end SymbolTable

end QuantumScript
