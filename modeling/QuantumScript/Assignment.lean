import QuantumScript.Call
import QuantumScript.Members
/-!
# Assignments on their way

While the sides of an assignment are walked, the accesses that each side is made of are recorded, so
that the targets can be bound to the type of the value when the statement ends.
-/

namespace QuantumScript

/-- An access to a member of the value so far. -/
structure MemberAccess where
  site : Site
  /-- The result is subscripted. -/
  indexed : Bool
  deriving DecidableEq, Repr

/-- A variable with the accesses that follow it. -/
structure AccessChain where
  root : Site
  /-- The variable itself is subscripted. -/
  indexed : Bool
  members : List MemberAccess
  /-- Arguments of the last call. -/
  arguments : List CallArgument
  deriving DecidableEq, Repr

namespace AccessChain

def start (site : Site) : AccessChain := ⟨site, false, [], []⟩

/-- Marks the last access of a list as subscripted. -/
def indexLast : List MemberAccess → List MemberAccess
  | [] => []
  | [access] => [{ access with indexed := true }]
  | access :: rest => access :: indexLast rest

/-- The value so far is subscripted. -/
def index (chain : AccessChain) : AccessChain :=
  if chain.members.isEmpty then { chain with indexed := true }
  else { chain with members := indexLast chain.members }

def access (chain : AccessChain) (site : Site) : AccessChain :=
  { chain with members := chain.members ++ [⟨site, false⟩] }

theorem indexLast_append (members : List MemberAccess) (last : MemberAccess) :
    indexLast (members ++ [last]) = members ++ [{ last with indexed := true }] := by
  induction members with
  | nil => rfl
  | cons first rest ih =>
    have hrest : rest ++ [last] ≠ [] := List.append_ne_nil_of_right_ne_nil _ (List.cons_ne_nil _ _)
    rw [List.cons_append, List.cons_append, ← ih]
    obtain ⟨second, others, hothers⟩ := List.exists_cons_of_ne_nil hrest
    rw [hothers]
    rfl

/-- A chain that has a member has a last one. -/
theorem members_cases (chain : AccessChain) :
    chain.members = [] ∨ ∃ members last, chain.members = members ++ [last] :=
  (List.eq_nil_or_concat chain.members).imp_right fun ⟨members, last, h⟩ =>
    ⟨members, last, h.trans (List.concat_eq_append)⟩

theorem index_of_nil {chain : AccessChain} (h : chain.members = []) :
    chain.index = { chain with indexed := true } := by
  rw [index, h]
  rfl

theorem index_of_append {chain : AccessChain} {members : List MemberAccess} {last : MemberAccess}
    (h : chain.members = members ++ [last]) :
    chain.index = { chain with members := members ++ [{ last with indexed := true }] } := by
  rw [index, h, indexLast_append]
  cases members <;> rfl

/-- The element type if the value is subscripted. -/
def elementIf (table : SymbolTable) (indexed : Bool) (type : SymbolType) : Option SymbolType :=
  if indexed then table.elementType? type else some type

/-- The type of a value after accesses to its members. -/
def resolveMembers (table : SymbolTable) (type : SymbolType) :
    List MemberAccess → Option SymbolType
  | [] => some type
  | access :: rest =>
    match table.member type access.site.text with
    | .found (some result) =>
      (elementIf table access.indexed result).bind fun type => resolveMembers table type rest
    | _ => none

/-- The type that a chain comes to, by the declared results of the members. -/
def resolve? (table : SymbolTable) (chain : AccessChain) : Option SymbolType :=
  (table.resolve? chain.root.text).bind fun record =>
    (table.valueType? record.binding.type).bind fun type =>
      (elementIf table chain.indexed type).bind fun type =>
        resolveMembers table type chain.members

end AccessChain

/-- One side of an assignment. -/
structure Side where
  /-- Its first token. -/
  first : Site
  chain : Option AccessChain
  deriving DecidableEq, Repr

/-- The name that a target binds if it is a plain name. -/
def Side.plainName? (side : Side) : Option String :=
  match side.chain with
  | none => some side.first.text
  | some _ => none

structure FinishedAssignment where
  targets : List Side
  value : Side
  deriving DecidableEq, Repr

/-- Sides that are being walked and targets that are done, last ones first. -/
structure AssignmentTracker where
  pending : List Side
  targets : List Side
  deriving DecidableEq, Repr

namespace AssignmentTracker

def empty : AssignmentTracker := ⟨[], []⟩

/-- Starts a side. -/
def begin (tracker : AssignmentTracker) (first : Site) : AssignmentTracker :=
  { tracker with pending := ⟨first, none⟩ :: tracker.pending }

def modifyLast (tracker : AssignmentTracker) (f : Side → Side) : AssignmentTracker :=
  match tracker.pending with
  | [] => tracker
  | side :: rest => { tracker with pending := f side :: rest }

def modifyChain (tracker : AssignmentTracker) (f : AccessChain → AccessChain) :
    AssignmentTracker :=
  tracker.modifyLast fun side => { side with chain := side.chain.map f }

/-- The side starts with a variable. -/
def variableAt (tracker : AssignmentTracker) (site : Site) : AssignmentTracker :=
  tracker.modifyLast fun side => { side with chain := some (.start site) }

def indexed (tracker : AssignmentTracker) : AssignmentTracker :=
  tracker.modifyChain AccessChain.index

def access (tracker : AssignmentTracker) (site : Site) : AssignmentTracker :=
  tracker.modifyChain fun chain => chain.access site

def call (tracker : AssignmentTracker) (arguments : List CallArgument) : AssignmentTracker :=
  tracker.modifyChain fun chain => { chain with arguments }

/-- The side begun last is a target. -/
def assign (tracker : AssignmentTracker) : AssignmentTracker :=
  match tracker.pending with
  | [] => tracker
  | side :: rest => ⟨rest, side :: tracker.targets⟩

/-- Ends the statement: what was tracked, if a value was begun, and the empty tracker. -/
def finish (tracker : AssignmentTracker) : Option FinishedAssignment × AssignmentTracker :=
  (tracker.pending.head?.map fun value => ⟨tracker.targets.reverse, value⟩, empty)

end AssignmentTracker

end QuantumScript
