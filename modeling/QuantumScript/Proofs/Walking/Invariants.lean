import QuantumScript.Inference.Statements
import QuantumScript.Proofs.Walking.Steps
/-!
# Invariants of a walk

A property of the states of a walk holds all along if the single steps keep it. With it goes what is known
of the classes that come up on the way: what a state knows of a class is still known later on. What the
steps have to keep is said once, and then carried through the walk of every expression.
-/

namespace QuantumScript

namespace SymbolType

/-- The types of literals are primitive. -/
theorem exists_of_literalType? {tokens : List Ast.Leaf} {type : SymbolType}
    (h : Ast.Expr.literalType? tokens = some type) : ∃ kind, type = .primitive kind := by
  obtain ⟨leaf, _, hleaf⟩ := Option.bind_eq_some_iff.mp h
  split at hleaf <;> first | exact ⟨_, (Option.some.inj hleaf).symm⟩ | cases hleaf

private theorem exists_of_binary? {operator : Syntax.TokenKind} {left right type : SymbolType}
    (h : binary? operator left right = some type) : ∃ kind, type = .primitive kind := by
  unfold binary? at h
  split at h
  · exact ⟨_, (Option.some.inj h).symm⟩
  · split at h
    · obtain ⟨kind, _, rfl⟩ := Option.map_eq_some_iff.mp h
      exact ⟨kind, rfl⟩
    · cases h

private theorem exists_of_comprehension? {bracket : Option Syntax.TokenKind} {keyed : Bool} {type : SymbolType}
    (h : comprehension? bracket keyed = some type) : ∃ kind, type = .primitive kind := by
  unfold comprehension? at h
  split at h
  · exact ⟨_, (Option.some.inj h).symm⟩
  · split at h
    · exact ⟨_, (Option.some.inj h).symm⟩
    · cases h
  · cases h

end SymbolType

namespace Inference

open Text (LineIndex)

/-- The class that the type is, if the type is known and is a class. -/
def classesOf (type : Option SymbolType) : List ClassType := (type.bind SymbolType.class?).toList

theorem mem_classesOf {type : Option SymbolType} {own : ClassType} :
    own ∈ classesOf type ↔ type = some (.classType own) := by
  rw [classesOf, Option.mem_toList]
  cases type with
  | none => exact ⟨nofun, nofun⟩
  | some type => cases type <;> simp [SymbolType.class?]

theorem classesOf_eq_nil {type : Option SymbolType}
    (h : ∀ own, type = some own → ∃ kind, own = .primitive kind) : classesOf type = [] := by
  refine List.eq_nil_iff_forall_not_mem.mpr fun own hmem => ?_
  obtain ⟨kind, hkind⟩ := h _ (mem_classesOf.mp hmem)
  cases hkind

theorem classesOf_getD (type : Option SymbolType) : classesOf (some (type.getD .any)) = classesOf type := by
  cases type <;> rfl

theorem classesOf_or_subset (type other : Option SymbolType) :
    classesOf (type.or other) ⊆ classesOf type ++ classesOf other := by
  cases type with
  | none => exact List.subset_append_right _ _
  | some type => exact List.subset_append_left _ _

private theorem classesOf_unary?_subset (operator : Option Syntax.TokenKind) (operand : Option SymbolType) :
    classesOf (operator.bind fun operator => SymbolType.unary? operator operand) ⊆ classesOf operand := by
  cases operator with
  | none => exact List.nil_subset _
  | some operator =>
    rw [Option.bind_some, SymbolType.unary?]
    split
    · exact List.nil_subset _
    · exact List.Subset.refl _

/-- The class of a value, and the one of the instances that it makes when it is called. -/
def Value.classes (value : Value) : List ClassType :=
  match value.callee with
  | .constructor type _ => type :: classesOf value.type
  | _ => classesOf value.type

private theorem Value.classesOf_subset (value : Value) : classesOf value.type ⊆ value.classes := by
  unfold classes
  split
  · exact List.subset_cons_self _ _
  · exact List.Subset.refl _

private theorem Value.classes_ofType_subset (type : Option SymbolType) (more : List ClassType) :
    (Value.ofType type).classes ⊆ classesOf type ++ more := List.subset_append_left _ _

private theorem Value.classes_ofName_subset (type : Option SymbolType) (site : Site) :
    (Value.ofName type site).classes ⊆ classesOf type := by
  unfold ofName
  split
  · exact List.Subset.refl _
  · exact List.cons_subset.mpr ⟨List.mem_singleton_self _, List.Subset.refl _⟩
  · exact List.Subset.refl _

/-- A property of the states of a walk, and what is known of a class in a state. -/
structure Watch where
  holds : State → Prop
  knows : State → ClassType → Prop

/-- From the first state to the second the property is kept, and all that is known. -/
structure Watch.Keeps (watch : Watch) (state later : State) : Prop where
  holds : watch.holds later
  knows {own : ClassType} (h : watch.knows state own) : watch.knows later own

theorem Watch.Keeps.refl {watch : Watch} {state : State} (h : watch.holds state) :
    watch.Keeps state state := ⟨h, id⟩

theorem Watch.Keeps.trans {watch : Watch} {state later last : State} (h : watch.Keeps state later)
    (hlast : watch.Keeps later last) : watch.Keeps state last :=
  ⟨hlast.holds, fun hknown => hlast.knows (h.knows hknown)⟩

/-- Every step of a walk keeps the property. The classes that a lookup finds are known, and what is bound
or found to lack a member is of known class. -/
structure Watch.Steady (watch : Watch) : Prop where
  reads {state : State} (h : watch.holds state) {name : String} {record : Record}
    (hrecord : state.table.lookup? name = some record ∨ state.table.lookupDeclared? name = some record)
    {own : ClassType} (htype : record.binding.type = .classType own) : watch.knows state own
  use {state : State} (h : watch.holds state) (site : Site) : watch.Keeps state (state.use site)
  define {state : State} (h : watch.holds state) {binding : Binding}
    (hknown : ∀ own ∈ classesOf (some binding.type), watch.knows state own) :
    watch.Keeps state { state with table := state.table.define binding }
  seek {state : State} (h : watch.holds state) (line : Nat) :
    watch.Keeps state { state with table := state.table.seek line }
  push {state : State} (h : watch.holds state) (name : String) (line : Nat) :
    watch.Keeps state { state with table := state.table.push name line }
  close {state : State} (h : watch.holds state) (line : Nat) : watch.Keeps state (state.close line)
  check {state : State} (h : watch.holds state) (signature : Signature) (table : SymbolTable) (site : Site)
    (arguments : List CallArgument) :
    watch.Keeps state { state with
      diagnostics := state.diagnostics ++ signature.check table site arguments }
  unknown {state : State} (h : watch.holds state) {own : ClassType} (hknown : watch.knows state own)
    {site : Site} (hmissing : own.member? site.text = none) :
    watch.Keeps state { state with
      diagnostics := state.diagnostics ++ [.ofFinding (.unknownMethod site.text own.name) site] }

/-- The property tells nothing that the tracking of assignments changes. -/
def Watch.Trackable (watch : Watch) : Prop :=
  ∀ (state : State) (f : AssignmentTracker → AssignmentTracker), watch.holds state →
    watch.Keeps state { state with tracker := f state.tracker }

/-- From a state that knows some classes, the part of a walk leads to one that knows all that were known,
and the classes in the result as well. -/
def Upholds (watch : Watch) (known : List ClassType) {α : Type} (classes : α → List ClassType)
    (part : Inference α) : Prop :=
  ∀ state, watch.holds state → (∀ own ∈ known, watch.knows state own) →
    watch.Keeps state (part.run state).2 ∧
      ∀ own ∈ classes (part.run state).1, watch.knows (part.run state).2 own

section Rules

variable {watch : Watch} {known : List ClassType} {α β : Type} {classes : α → List ClassType}
  {final : β → List ClassType}

theorem upholds_pure {value : α} (h : classes value ⊆ known) : Upholds watch known classes (pure value) :=
  fun _ hstate hknown => ⟨.refl hstate, fun own hmem => hknown own (h hmem)⟩

theorem Upholds.bind {first : Inference α} {next : α → Inference β}
    (hfirst : Upholds watch known classes first)
    (hnext : ∀ value, Upholds watch (classes value ++ known) final (next value)) :
    Upholds watch known final (first >>= next) := by
  intro state hstate hknown
  obtain ⟨hkeeps, hresult⟩ := hfirst state hstate hknown
  have hboth : ∀ own ∈ classes (first.run state).1 ++ known, watch.knows (first.run state).2 own :=
    List.forall_mem_append.mpr ⟨hresult, fun own hmem => hkeeps.knows (hknown own hmem)⟩
  obtain ⟨hthen, hlast⟩ := hnext _ _ hkeeps.holds hboth
  exact ⟨hkeeps.trans hthen, hlast⟩

/-- A step of whose result nothing need be known. -/
theorem Upholds.next {first : Inference α} {next : α → Inference β}
    (hfirst : Upholds watch known classes first) (hnext : ∀ value, Upholds watch known final (next value)) :
    Upholds watch known final (first >>= next) := by
  intro state hstate hknown
  obtain ⟨hkeeps, _⟩ := hfirst state hstate hknown
  obtain ⟨hthen, hlast⟩ := hnext _ _ hkeeps.holds fun own hmem => hkeeps.knows (hknown own hmem)
  exact ⟨hkeeps.trans hthen, hlast⟩

/-- A look at the table, in which some classes are found. -/
theorem upholds_read {next : SymbolTable → Inference β} (found : SymbolTable → List ClassType)
    (hfound : ∀ state, watch.holds state → ∀ own ∈ found state.table, watch.knows state own)
    (hnext : ∀ table, Upholds watch (found table ++ known) final (next table)) :
    Upholds watch known final (table >>= next) :=
  fun state hstate hknown =>
    hnext state.table state hstate (List.forall_mem_append.mpr ⟨hfound state hstate, hknown⟩)

/-- A step that changes the state in a way that keeps the property. -/
theorem upholds_modify {f : State → State}
    (h : ∀ state, watch.holds state → (∀ own ∈ known, watch.knows state own) → watch.Keeps state (f state)) :
    Upholds watch known (fun _ => []) (modify f : Inference Unit) :=
  fun state hstate hknown => ⟨h state hstate hknown, nofun⟩

private theorem upholds_trackIf {tracked : Bool} (htracked : tracked = true → watch.Trackable)
    (f : AssignmentTracker → AssignmentTracker) : Upholds watch known (fun _ => []) (trackIf tracked f) := by
  cases tracked with
  | true => exact upholds_modify fun state hstate _ => htracked rfl state f hstate
  | false => exact upholds_pure (List.nil_subset _)

end Rules

section Tables

variable {watch : Watch} (h : watch.Steady) {state : State} (hstate : watch.holds state)
include h hstate

namespace Watch.Steady

theorem resolve? {name : String} {own : ClassType}
    (hmem : own ∈ classesOf ((state.table.resolve? name).map fun record => record.binding.type)) :
    watch.knows state own := by
  obtain ⟨record, hrecord, htype⟩ := Option.map_eq_some_iff.mp (mem_classesOf.mp hmem)
  rw [SymbolTable.resolve?, Option.or_eq_some_iff] at hrecord
  exact h.reads hstate (hrecord.imp_right And.right) htype

theorem resolveType? {name : String} {own : ClassType}
    (hmem : own ∈ classesOf (state.table.resolveType? name)) : watch.knows state own := by
  have htype := mem_classesOf.mp hmem
  unfold SymbolTable.resolveType? at htype
  split at htype
  · cases htype
  · split at htype
    · rename_i hrecord
      cases htype
      have hresolved : own ∈ classesOf ((state.table.resolve? name).map
          fun record => record.binding.type) := by
        rw [hrecord]
        exact List.mem_singleton_self own
      exact h.resolve? hstate hresolved
    · cases htype

/-- The type that is named, if there is a name. -/
theorem bind_resolveType? {name : Option String} {own : ClassType}
    (hmem : own ∈ classesOf (name.bind state.table.resolveType?)) : watch.knows state own := by
  obtain ⟨name, _, htype⟩ := Option.bind_eq_some_iff.mp (mem_classesOf.mp hmem)
  exact h.resolveType? hstate (mem_classesOf.mpr htype)

theorem elementType? {type : SymbolType} {own : ClassType}
    (hmem : own ∈ classesOf (state.table.elementType? type)) : watch.knows state own := by
  have htype := mem_classesOf.mp hmem
  unfold SymbolTable.elementType? at htype
  split at htype
  · obtain ⟨record, hrecord, htype⟩ := Option.map_eq_some_iff.mp htype
    obtain ⟨name, _, hdeclared⟩ := Option.bind_eq_some_iff.mp hrecord
    exact h.reads hstate (.inr hdeclared) htype
  · cases htype
  · cases htype

private theorem bind_elementType? {type : Option SymbolType} {own : ClassType}
    (hmem : own ∈ classesOf (type.bind state.table.elementType?)) : watch.knows state own := by
  obtain ⟨type, _, htype⟩ := Option.bind_eq_some_iff.mp (mem_classesOf.mp hmem)
  exact h.elementType? hstate (mem_classesOf.mpr htype)

theorem loopType {target : Ast.Expr} {iterable : Option Ast.Expr} {iterated : Option SymbolType}
    {own : ClassType} (hmem : own ∈ classesOf (some (loopType state.table target iterable iterated))) :
    watch.knows state own := by
  unfold Inference.loopType at hmem
  split at hmem
  · split at hmem
    · cases hmem
    · rw [classesOf_getD] at hmem
      exact h.bind_elementType? hstate hmem
  · cases hmem

end Watch.Steady

end Tables

section Parts

variable {watch : Watch} {known : List ClassType} (h : watch.Steady)
include h

private theorem upholds_check (signature : Signature) (table : SymbolTable) (site : Site)
    (arguments : List CallArgument) :
    Upholds watch known (fun _ => []) (report (signature.check table site arguments)) :=
  upholds_modify fun _ hstate _ => h.check hstate signature table site arguments

theorem upholds_seek (line : Nat) : Upholds watch known (fun _ => []) (seek line) :=
  upholds_modify fun _ hstate _ => h.seek hstate line

theorem upholds_define (name : String) {type : SymbolType} (htype : classesOf (some type) ⊆ known)
    (line : Nat) : Upholds watch known (fun _ => []) (define name type line) :=
  upholds_modify fun _ hstate hknown => h.define hstate fun own hmem => hknown own (htype hmem)

theorem upholds_defineAll (names : List String) {type : SymbolType} (htype : classesOf (some type) ⊆ known)
    (line : Nat) : Upholds watch known (fun _ => []) (defineAll names type line) := by
  induction names with
  | nil => exact upholds_pure (List.nil_subset _)
  | cons name rest ih => exact (upholds_define h name htype line).next fun _ => ih

theorem upholds_defineLoopTarget (line : Nat) (target iterable : Option Ast.Expr)
    (iterated : Option SymbolType) :
    Upholds watch known (fun _ => []) (defineLoopTarget line target iterable iterated) := by
  unfold defineLoopTarget
  split
  · exact upholds_pure (List.nil_subset _)
  · rename_i target
    refine upholds_read (fun table => classesOf (some (loopType table target iterable iterated)))
      (fun _ hstate _ hmem => h.loopType hstate hmem) fun table => ?_
    exact upholds_defineAll h _ (List.subset_append_left _ _) line

theorem Upholds.within {name : String} {opened closed : Nat} {body : Inference Unit}
    (hbody : Upholds watch known (fun _ => []) body) :
    Upholds watch known (fun _ => []) (within name opened closed body) := by
  intro state hstate hknown
  have hpush := h.push hstate name opened
  obtain ⟨hkeeps, _⟩ := hbody _ hpush.holds fun own hmem => hpush.knows (hknown own hmem)
  exact ⟨(hpush.trans hkeeps).trans (h.close hkeeps.holds closed), nofun⟩

theorem Upholds.isolated {name : String} {line : Nat} {body : Inference Unit}
    (hbody : Upholds watch known (fun _ => []) body) :
    Upholds watch known (fun _ => []) (isolated name line body) := by
  have hwithin : Upholds watch known (fun _ => []) (Inference.within name line line body) :=
    Upholds.within h hbody
  intro state hstate hknown
  obtain ⟨hkeeps, _⟩ := hwithin state hstate hknown
  exact ⟨hkeeps.trans (h.seek hkeeps.holds _), nofun⟩

private theorem upholds_resolve (site : Site) : Upholds watch known classesOf (resolve site) := by
  intro state hstate _
  have hkeeps := h.use hstate site
  exact ⟨hkeeps, fun own hmem => hkeeps.knows (h.resolve? hstate hmem)⟩

private theorem upholds_name (index : LineIndex) {tracked : Bool} (htracked : tracked = true → watch.Trackable)
    (part : Ast.Name) :
    Upholds watch known (fun found => found.toList.flatMap Value.classes) (name index tracked part) := by
  unfold name
  split
  · exact upholds_pure (List.nil_subset _)
  · refine (upholds_trackIf htracked _).next fun _ => (upholds_resolve h _).bind fun type => ?_
    refine upholds_pure ?_
    simp only [Option.toList_some, List.flatMap_singleton]
    exact List.Subset.trans (Value.classes_ofName_subset type _) (List.subset_append_left _ _)

private theorem upholds_access {receiver : Option SymbolType} (hreceiver : classesOf receiver ⊆ known)
    (site : Site)
    (called : Bool) : Upholds watch known Value.classes (access receiver site called) := by
  unfold access
  split
  · exact upholds_pure (List.nil_subset _)
  · rename_i receiver
    let signature? := receiver.class?.bind fun type => type.member? site.text
    refine upholds_read
      (fun table => classesOf ((signature?.bind Signature.returns).bind table.resolveType?))
      (fun _ hstate _ hmem => h.bind_resolveType? hstate hmem) fun table => ?_
    cases receiver with
    | classType own =>
      simp only [signature?, SymbolTable.member, SymbolType.class?, Option.bind_some]
      cases hmember : own.member? site.text with
      | some signature => exact upholds_pure (List.subset_append_left _ _)
      | none =>
        have hnone : Upholds watch known Value.classes (pure (.ofType none)) :=
          upholds_pure (List.nil_subset _)
        cases called with
        | false => exact hnone
        | true =>
          refine Upholds.next (upholds_modify fun _ hstate hknown => ?_) fun _ => hnone
          exact h.unknown hstate (hknown own (hreceiver (List.mem_singleton_self _))) hmember
    | _ => exact upholds_pure (List.nil_subset _)

private theorem upholds_call {value : Value} (hvalue : value.classes ⊆ known) (arguments : List CallArgument) :
    Upholds watch known classesOf (call value.callee arguments) := by
  cases hcallee : value.callee with
  | signature signature site =>
    refine upholds_read (fun table => classesOf (signature.returns.bind table.resolveType?))
      (fun _ hstate _ hmem => h.bind_resolveType? hstate hmem) fun table => ?_
    exact (upholds_check h _ _ _ _).next fun _ => upholds_pure (List.subset_append_left _ _)
  | constructor type site =>
    have htype : classesOf (some (.classType type)) ⊆ known := by
      refine List.Subset.trans (fun own hmem => ?_) hvalue
      rw [List.mem_singleton.mp hmem, Value.classes, hcallee]
      exact List.mem_cons_self
    refine upholds_read (fun _ => []) (fun _ _ => nofun) fun table => ?_
    dsimp only
    split
    · exact (upholds_check h _ _ _ _).next fun _ => upholds_pure htype
    · exact upholds_pure htype
  | unchecked => exact upholds_read (fun _ => []) (fun _ _ => nofun) fun _ => upholds_pure (List.nil_subset _)

end Parts

section Expressions

variable {watch : Watch} (index : LineIndex) {line : Nat}

mutual

/-- The walk of an expression keeps the property, and the class that comes out is known. -/
theorem upholds_expr (h : watch.Steady) {known : List ClassType} (tracked : Bool)
    (htracked : tracked = true → watch.Trackable) (e : Ast.Expr) :
    Upholds watch known classesOf (expr index line tracked e) := by
  have hnone : Upholds watch known classesOf (pure none) := upholds_pure (List.nil_subset _)
  match e with
  | .name part =>
    rw [expr]
    refine (upholds_name h index htracked part).bind fun found => upholds_pure ?_
    cases found with
    | none => exact List.nil_subset _
    | some value =>
      simp only [Option.toList_some, List.flatMap_singleton]
      exact List.Subset.trans value.classesOf_subset (List.subset_append_left _ _)
  | .literal _ tokens =>
    rw [expr]
    refine upholds_pure ?_
    rw [classesOf_eq_nil fun _ => SymbolType.exists_of_literalType?]
    exact List.nil_subset _
  | .chain _ none _ | .parenthesized _ none =>
    rw [expr]
    exact hnone
  | .chain _ (some atom) trailers =>
    have hatom : Upholds watch known classesOf (expr index line false atom) :=
      upholds_expr h false nofun atom
    cases atom with
    | name part =>
      rw [expr]
      refine (upholds_name h index htracked part).bind fun found => ?_
      cases found with
      | none => exact upholds_pure (List.nil_subset _)
      | some value =>
        simp only [Option.toList_some, List.flatMap_singleton]
        exact upholds_chain h htracked (List.subset_append_left _ _) trailers
    | _ =>
      rw [expr]
      · exact hatom.bind fun type =>
          upholds_chain h htracked (Value.classes_ofType_subset type _) trailers
      · simp
  | .binary _ operator left right =>
    rw [expr]
    refine (upholds_optional h left).next fun _ => (upholds_optional h right).next fun _ => ?_
    split
    · refine upholds_pure ?_
      rw [classesOf_eq_nil fun _ => SymbolType.exists_of_binary?]
      exact List.nil_subset _
    · exact hnone
  | .unary _ operator operand =>
    rw [expr]
    refine (upholds_optional h operand).bind fun type => upholds_pure ?_
    exact List.Subset.trans (classesOf_unary?_subset operator type) (List.subset_append_left _ _)
  | .parenthesized _ (some inner) =>
    rw [expr]
    exact upholds_expr h tracked htracked inner
  | .list _ items | .dictionary _ items =>
    rw [expr]
    exact (upholds_exprs h items).next fun _ => upholds_pure (List.nil_subset _)
  | .conditional _ items | .expressionList _ items =>
    rw [expr]
    exact (upholds_exprs h items).next fun _ => hnone
  | .lambda _ none body =>
    rw [expr]
    refine Upholds.next (Upholds.isolated h ?_) fun _ => hnone
    refine (upholds_defineAll h _ (List.nil_subset _) line).next fun _ => ?_
    exact (upholds_optional h body).next fun _ => upholds_pure (List.nil_subset _)
  | .lambda _ (some ⟨_, items⟩) body =>
    rw [expr]
    refine (upholds_defaults h items).next fun _ => ?_
    refine Upholds.next (Upholds.isolated h ?_) fun _ => hnone
    refine (upholds_defineAll h _ (List.nil_subset _) line).next fun _ => ?_
    exact (upholds_optional h body).next fun _ => upholds_pure (List.nil_subset _)
  | .yield _ value =>
    rw [expr]
    exact (upholds_optional h value).next fun _ => hnone
  | .comprehension _ elements clauses bracket keyed =>
    rw [expr]
    refine Upholds.next (Upholds.isolated h ?_) fun _ => upholds_pure ?_
    · exact (upholds_generators h clauses).next fun _ => upholds_exprs h elements
    · rw [classesOf_eq_nil fun _ => SymbolType.exists_of_comprehension?]
      exact List.nil_subset _

theorem upholds_optional (h : watch.Steady) {known : List ClassType} (e : Option Ast.Expr) :
    Upholds watch known classesOf (optional index line e) := by
  match e with
  | none =>
    rw [optional]
    exact upholds_pure (List.nil_subset _)
  | some e =>
    rw [optional]
    exact upholds_expr h false nofun e

theorem upholds_exprs (h : watch.Steady) {known : List ClassType} (items : List Ast.Expr) :
    Upholds watch known (fun _ => []) (exprs index line items) := by
  match items with
  | [] =>
    rw [exprs]
    exact upholds_pure (List.nil_subset _)
  | e :: rest =>
    rw [exprs]
    exact Upholds.next (upholds_expr h false nofun e) fun _ => upholds_exprs h rest

private theorem upholds_chain (h : watch.Steady) {known : List ClassType} {tracked : Bool}
    (htracked : tracked = true → watch.Trackable) {value : Value} (hvalue : value.classes ⊆ known)
    (trailers : List Ast.Trailer) :
    Upholds watch known classesOf (chain index line tracked value trailers) := by
  have htype : classesOf value.type ⊆ known := List.Subset.trans value.classesOf_subset hvalue
  match trailers with
  | [] =>
    rw [chain]
    exact upholds_pure htype
  | .attribute _ name :: rest =>
    rw [chain]
    split
    · exact upholds_chain h htracked (List.nil_subset _) rest
    · refine (upholds_trackIf htracked _).next fun _ => ?_
      exact (upholds_access h htype _ _).bind fun value =>
        upholds_chain h htracked (List.subset_append_left _ _) rest
  | .arguments _ items :: rest =>
    rw [chain]
    refine (upholds_arguments h items).next fun given => (upholds_trackIf htracked _).next fun _ => ?_
    exact (upholds_call h hvalue given).bind fun type =>
      upholds_chain h htracked (Value.classes_ofType_subset type _) rest
  | .subscripts _ items :: rest =>
    rw [chain]
    refine (upholds_subscripts h items).next fun _ => (upholds_trackIf htracked _).next fun _ => ?_
    refine upholds_read (fun table => classesOf (value.type.bind table.elementType?))
      (fun _ hstate _ hmem => h.bind_elementType? hstate hmem) fun table => ?_
    exact upholds_chain h htracked (Value.classes_ofType_subset _ _) rest

theorem upholds_arguments (h : watch.Steady) {known : List ClassType} (items : List Ast.Argument) :
    Upholds watch known (fun _ => []) (arguments index line items) := by
  match items with
  | [] =>
    rw [arguments]
    exact upholds_pure (List.nil_subset _)
  | ⟨_, _, _, value⟩ :: rest =>
    rw [arguments]
    refine (upholds_optional h value).next fun _ => ?_
    exact (upholds_arguments h rest).next fun _ => upholds_pure (List.nil_subset _)

theorem upholds_subscripts (h : watch.Steady) {known : List ClassType} (items : List Ast.Subscript) :
    Upholds watch known (fun _ => []) (subscripts index line items) := by
  match items with
  | [] =>
    rw [subscripts]
    exact upholds_pure (List.nil_subset _)
  | ⟨_, parts⟩ :: rest =>
    rw [subscripts]
    exact (upholds_exprs h parts).next fun _ => upholds_subscripts h rest

theorem upholds_defaults (h : watch.Steady) {known : List ClassType} (items : List Ast.Parameter) :
    Upholds watch known (fun _ => []) (defaults index line items) := by
  match items with
  | [] =>
    rw [defaults]
    exact upholds_pure (List.nil_subset _)
  | ⟨_, _, _, none, _⟩ :: rest =>
    rw [defaults]
    exact upholds_defaults h rest
  | ⟨_, _, _, some ⟨_, value⟩, _⟩ :: rest =>
    rw [defaults]
    exact (upholds_optional h value).next fun _ => upholds_defaults h rest

private theorem upholds_generators (h : watch.Steady) {known : List ClassType} (clauses : List Ast.Clause) :
    Upholds watch known (fun _ => []) (generators index line clauses) := by
  match clauses with
  | [] =>
    rw [generators]
    exact upholds_pure (List.nil_subset _)
  | .forClause _ target iterable :: rest =>
    rw [generators]
    refine (upholds_optional h iterable).next fun _ => ?_
    exact (upholds_defineLoopTarget h line _ _ _).next fun _ => upholds_generators h rest
  | .ifClause _ condition :: rest =>
    rw [generators]
    exact (upholds_optional h condition).next fun _ => upholds_generators h rest

end

end Expressions

end Inference

end QuantumScript
