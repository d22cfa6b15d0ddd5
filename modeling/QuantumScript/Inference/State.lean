import QuantumScript.Assignment
import QuantumScript.Imports
import QuantumScript.Inference.Operators
/-!
# State of inference

Walking a script changes the table, the assignment that is on its way, the uses of names met so far
and the diagnostics. Every step of the walk is made of the few steps given here.

A scope that cannot be closed is passed over: the walk goes on, and keeps a note of it.
-/

namespace QuantumScript

/-- A use of a name with the table that it is looked up in. -/
structure Use where
  site : Site
  table : SymbolTable
  deriving DecidableEq, Repr

/-- The binding that the name means, if there is one. -/
def Use.record (use : Use) : Option Record := use.table.resolve? use.site.text

namespace Inference

structure State where
  table : SymbolTable
  tracker : AssignmentTracker
  uses : List Use
  diagnostics : List Diagnostic
  /-- Why scopes could not be closed. The user is not told. -/
  faults : List SymbolError
  deriving DecidableEq, Repr

namespace State

def start (table : SymbolTable) : State := ⟨table, .empty, [], [], []⟩

/-- Looks a name up at a site, and reports it if it is bound nowhere. -/
def use (state : State) (site : Site) : State :=
  let found :=
    match state.table.resolve? site.text with
    | some _ => []
    | none => [.ofFinding (.undefinedSymbol site.text) site]
  { state with
    uses := state.uses ++ [⟨site, state.table⟩], diagnostics := state.diagnostics ++ found }

/-- Closes the scope opened last. -/
def close (state : State) (line : Nat) : State :=
  match state.table.pop line with
  | .ok (_, closed) => { state with table := closed }
  | .error fault => { state with faults := state.faults ++ [fault] }

end State

end Inference

/-- A part of the walk with its result. -/
abbrev Inference := StateM Inference.State

namespace Inference

open Text (LineIndex)

/-- The table as it is now. -/
def table : Inference SymbolTable := State.table <$> get

def modifyTable (f : SymbolTable → SymbolTable) : Inference Unit :=
  modify fun state => { state with table := f state.table }

def seek (line : Nat) : Inference Unit := modifyTable fun table => table.seek line

/-- A statement reads the bindings of the lines above its own. -/
def enter (line : Nat) : Inference Unit := seek (line - 1)

def define (name : String) (type : SymbolType) (line : Nat) : Inference Unit :=
  modifyTable fun table => table.define ⟨name, type, line⟩

def defineAll (names : List String) (type : SymbolType) (line : Nat) : Inference Unit :=
  names.forM fun name => define name type line

/-- Binds all names of a target that may be a list of names. -/
def defineTarget (target : Ast.Expr) (type : SymbolType) (line : Nat) : Inference Unit :=
  defineAll (target.boundLeaves.map Ast.Leaf.text) type line

def report (found : List Diagnostic) : Inference Unit :=
  modify fun state => { state with diagnostics := state.diagnostics ++ found }

def track (f : AssignmentTracker → AssignmentTracker) : Inference Unit :=
  modify fun state => { state with tracker := f state.tracker }

/-- The sides of an assignment are tracked, and what is nested in them is not. -/
def trackIf (tracked : Bool) (f : AssignmentTracker → AssignmentTracker) : Inference Unit :=
  if tracked then track f else pure ()

/-- Ends the assignment that is tracked. -/
def finish : Inference (Option FinishedAssignment) :=
  modifyGet fun state =>
    (state.tracker.finish.1, { state with tracker := state.tracker.finish.2 })

/-- Resolves a use of a name. Its type is that of the binding that it means. -/
def resolve (site : Site) : Inference (Option SymbolType) :=
  modifyGet fun state =>
    ((state.table.resolve? site.text).map fun record => record.binding.type, state.use site)

def openScope (name : String) (line : Nat) : Inference Unit :=
  modifyTable fun table => table.push name line

def closeScope (line : Nat) : Inference Unit := modify fun state => state.close line

/-- Does something within a scope of its own. -/
def within (name : String) (opened closed : Nat) (body : Inference Unit) : Inference Unit := do
  openScope name opened
  body
  closeScope closed

/-- Does something within a scope on one line, and goes back to where the walk was. -/
def isolated (name : String) (line : Nat) (body : Inference Unit) : Inference Unit := do
  let resume := (← table).position
  within name line line body
  seek resume

/-- What a call would call. -/
inductive Callee
  /-- A function or method, named at a site. -/
  | signature (signature : Signature) (site : Site)
  /-- A class, of which a call makes an instance. -/
  | constructor (type : ClassType) (site : Site)
  | unchecked
  deriving DecidableEq, Repr

/-- What is known about a value. -/
structure Value where
  type : Option SymbolType
  callee : Callee
  deriving DecidableEq, Repr

namespace Value

/-- A value that cannot be called by any known signature. -/
def ofType (type : Option SymbolType) : Value := ⟨type, .unchecked⟩

/-- The value of a name. -/
def ofName (type : Option SymbolType) (site : Site) : Value :=
  match type with
  | some (.function signature) => ⟨type, .signature signature site⟩
  | some (.classType own) => ⟨type, .constructor own site⟩
  | _ => ofType type

end Value

/-- The value of a name; nothing if the name is missing. -/
def name (index : LineIndex) (tracked : Bool) (part : Ast.Name) : Inference (Option Value) :=
  match part.ident with
  | none => return none
  | some leaf => do
    let site := index.leafSite leaf
    trackIf tracked fun tracker => tracker.variableAt site
    return some (.ofName (← resolve site) site)

/-- An access to a member. A member that is missing is reported only if it is called, since it may
be a field that a method sets. -/
def access (receiver : Option SymbolType) (site : Site) (called : Bool) : Inference Value := do
  match receiver with
  | none => return .ofType none
  | some receiver =>
    match (← table).member receiver site.text with
    | .found result =>
      match receiver.class?.bind fun type => type.member? site.text with
      | some signature => return ⟨result, .signature signature site⟩
      | none => return .ofType result
    | .missing =>
      if called then report [.ofFinding (.unknownMethod site.text receiver.name) site]
      return .ofType none
    | .unknown => return .ofType none

/-- Checks a call and gives the type of its value. -/
def call (callee : Callee) (arguments : List CallArgument) : Inference (Option SymbolType) := do
  let table ← table
  match callee with
  | .signature signature site =>
    report (signature.check table site arguments)
    return signature.returns.bind table.resolveType?
  | .constructor type site =>
    match type.construction? with
    | some signature => report (signature.check table site arguments)
    | none => pure ()
    return some (.classType type)
  | .unchecked => return none

end Inference

end QuantumScript
