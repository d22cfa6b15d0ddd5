import QuantumScript.Proofs.Binding.Values
/-!
# Values of chains

The type of a chain of accesses can be told from the table alone: walking what is nested in the chain
changes no answer of the table. So the walk of a chain comes to the type that its trailers make of the
value that it starts with.
-/

namespace QuantumScript

namespace SymbolTable

/-- The two tables mean the same by every name. -/
structure Answers (table other : SymbolTable) : Prop where
  resolve? (name : String) : table.resolve? name = other.resolve? name
  lookupDeclared? (name : String) : table.lookupDeclared? name = other.lookupDeclared? name

namespace Answers

variable {table other : SymbolTable} (h : Answers table other)
include h

theorem resolveType? (name : String) : table.resolveType? name = other.resolveType? name := by
  rw [SymbolTable.resolveType?, SymbolTable.resolveType?, h.resolve?]

theorem valueType? (type : SymbolType) : table.valueType? type = other.valueType? type := by
  unfold SymbolTable.valueType?
  simp only [h.resolveType?]

theorem elementType? (type : SymbolType) : table.elementType? type = other.elementType? type := by
  unfold SymbolTable.elementType?
  simp only [funext h.lookupDeclared?]

theorem member (type : SymbolType) (name : String) : table.member type name = other.member type name := by
  unfold SymbolTable.member
  simp only [funext h.resolveType?]

end Answers

/-- What is opened and closed inside a table changes none of its answers. -/
theorem Inside.answers {line : Nat} {base table : SymbolTable} (h : Inside line base [] table)
    (hgrounded : base.Grounded) : Answers table base := by
  have hdeclared (name : String) : table.lookupDeclared? name = base.lookupDeclared? name := by
    rw [SymbolTable.lookupDeclared?, h.live, List.nil_append]
    refine findIn_congr_ids fun id hmem => ?_
    rw [h.scopes (hgrounded id hmem)]
  refine ⟨fun name => ?_, hdeclared⟩
  rw [SymbolTable.resolve?, SymbolTable.resolve?, h.lookup?_eq hgrounded, hdeclared]

end SymbolTable

namespace Inference

open SymbolTable
open Text (LineIndex)

/-- The value that an access to a member comes to. -/
def Value.access (table : SymbolTable) (receiver : Option SymbolType) (site : Site) : Value :=
  match receiver with
  | none => .ofType none
  | some receiver =>
    match table.member receiver site.text with
    | .found result =>
      match receiver.class?.bind fun type => type.member? site.text with
      | some signature => ⟨result, .signature signature site⟩
      | none => .ofType result
    | .missing | .unknown => .ofType none

/-- The type that a call comes to. -/
def Callee.result? (table : SymbolTable) : Callee → Option SymbolType
  | .signature own _ => own.returns.bind table.resolveType?
  | .constructor type _ => some (.classType type)
  | .unchecked => none

/-- The type that a value comes to by the trailers that follow it. -/
def Value.through (index : LineIndex) (table : SymbolTable) (value : Value) :
    List Ast.Trailer → Option SymbolType
  | [] => value.type
  | .attribute _ name :: rest =>
    match name.bind Ast.Name.ident with
    | none => (Value.ofType none).through index table rest
    | some leaf => (Value.access table value.type (index.leafSite leaf)).through index table rest
  | .arguments _ _ :: rest => (Value.ofType (value.callee.result? table)).through index table rest
  | .subscripts _ _ :: rest => (Value.ofType (value.type.bind table.elementType?)).through index table rest

/-- Of a value of unknown type nothing becomes known. -/
theorem Value.through_none (index : LineIndex) (table : SymbolTable) (trailers : List Ast.Trailer) :
    (Value.ofType none).through index table trailers = none := by
  induction trailers with
  | nil => rfl
  | cons trailer rest ih =>
    cases trailer with
    | «attribute» _ name =>
      rw [through]
      split <;> exact ih
    | arguments _ _ | subscripts _ _ => exact ih

section Tables

variable {table other : SymbolTable} (h : Answers table other)
include h

private theorem Value.access_congr (receiver : Option SymbolType) (site : Site) :
    Value.access table receiver site = Value.access other receiver site := by
  unfold Value.access
  simp only [h.member]

private theorem Callee.result?_congr (callee : Callee) : callee.result? table = callee.result? other := by
  unfold Callee.result?
  simp only [funext h.resolveType?]

end Tables

private theorem run_access (receiver : Option SymbolType) (site : Site) (called : Bool) (state : State) :
    ((access receiver site called).run state).1 = Value.access state.table receiver site := by
  cases receiver with
  | none => rfl
  | some receiver =>
    cases receiver with
    | classType type =>
      rw [access, run_bind]
      simp only [Value.access, SymbolTable.member, SymbolType.class?, Option.bind_some]
      cases type.member? site.text with
      | some own => rfl
      | none => cases called <;> rfl
    | _ => rfl

private theorem run_call (callee : Callee) (arguments : List CallArgument) (state : State) :
    ((call callee arguments).run state).1 = callee.result? state.table := by
  cases callee with
  | signature own site => rfl
  | constructor type site =>
    rw [call, run_bind]
    dsimp only
    split <;> rfl
  | unchecked => rfl

section Chains

variable (index : LineIndex) {line : Nat} {base : SymbolTable}

theorem Local.inside {marks : Bool} {α : Type} {part : Inference α} (h : Local line false marks part)
    {state : State} (hinside : Inside line base [] state.table) :
    Inside line base [] (part.run state).2.table := (h.stays hinside nofun).table

private theorem table_trackIf (tracked : Bool) (f : AssignmentTracker → AssignmentTracker) (state : State) :
    ((trackIf tracked f).run state).2.table = state.table := by cases tracked <;> rfl

/-- The walk of trailers comes to the type that they make of the value that they follow. -/
theorem run_chain (hgrounded : base.Grounded) (tracked : Bool) (value : Value) (trailers : List Ast.Trailer)
    {state : State} (hinside : Inside line base [] state.table) :
    ((chain index line tracked value trailers).run state).1 = value.through index base trailers := by
  induction trailers generalizing value state with
  | nil =>
    rw [chain]
    rfl
  | cons trailer rest ih =>
    cases trailer with
    | «attribute» _ name =>
      rw [chain, Value.through]
      cases name.bind Ast.Name.ident with
      | none => exact ih _ hinside
      | some leaf =>
        dsimp only
        rw [run_bind, run_bind, run_access]
        have hnoted : Inside line base [] ((trackIf tracked
            fun tracker => tracker.access (index.leafSite leaf)).run state).2.table := by
          rwa [table_trackIf]
        have haccess : Local line false false
            (access value.type (index.leafSite leaf) (rest.head?.any Ast.Trailer.isCall)) :=
          local_access _ _ _
        rw [ih _ (haccess.inside hnoted), Value.access_congr (hnoted.answers hgrounded)]
    | arguments _ items =>
      rw [chain, Value.through, run_bind, run_bind, run_bind, run_call]
      have hitems : Local line false false (arguments index line items) := local_arguments index items
      have hnoted : Inside line base []
          ((trackIf tracked fun tracker => tracker.call ((arguments index line items).run state).1).run
            ((arguments index line items).run state).2).2.table := by
        rw [table_trackIf]
        exact hitems.inside hinside
      have hcall : Local line false false
          (call value.callee ((arguments index line items).run state).1) := local_call _ _
      rw [ih _ (hcall.inside hnoted), Callee.result?_congr (hnoted.answers hgrounded)]
    | subscripts _ items =>
      rw [chain, Value.through, run_bind, run_bind, run_bind]
      have hitems : Local line false false (subscripts index line items) := local_subscripts index items
      have hnoted : Inside line base [] ((trackIf tracked AssignmentTracker.indexed).run
          ((subscripts index line items).run state).2).2.table := by
        rw [table_trackIf]
        exact hitems.inside hinside
      refine (ih _ hnoted).trans ?_
      exact congrArg (fun element => (Value.ofType (value.type.bind element)).through index base rest)
        (funext (hnoted.answers hgrounded).elementType?)

end Chains

end Inference

end QuantumScript
