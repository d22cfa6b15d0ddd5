import QuantumScript.Hoisting
import QuantumScript.Proofs.Binding.Assignments
import QuantumScript.Proofs.Walking.Invariants
import QuantumScript.Proofs.Walking.Visits
/-!
# Invariants of the walk of a script

The walk of a statement keeps an invariant of single steps too, and so does hoisting. Only where a class is
defined has it to be asked that the class may be bound: its type is the one thing that is new.
-/

namespace QuantumScript

private theorem SymbolType.exists_of_constantType? {e : Ast.Expr} {type : SymbolType}
    (h : e.constantType? = some type) : ∃ kind, type = .primitive kind := by
  fun_induction Ast.Expr.constantType? e with
  | case1 => exact exists_of_literalType? h
  | case3 _ _ _ _ ih => exact ih h
  | case5 | case6 => exact ⟨_, (Option.some.inj h).symm⟩
  | _ => cases h

/-- The types that are found for the bases of a class before the script is walked. -/
def SymbolTable.hoistedBases (table : SymbolTable) (s : Ast.Statement) : List SymbolType :=
  s.bases.filterMap fun base => (base.value.bind Ast.Expr.typeName?).bind table.resolveType?

namespace Inference

open Text (LineIndex)

/-- Where the statement defines a class, the class may be bound with the bases if these are known. It is known
from then on. -/
def Watch.Declares (watch : Watch) (s : Ast.Statement) (bases : List SymbolType) : Prop :=
  match s with
  | .classDefinition _ _ name _ body =>
    ∀ declared state line, Ast.classType? name body = some declared → watch.holds state →
      (∀ own ∈ bases.filterMap SymbolType.class?, watch.knows state own) →
        let type := declared.inherit bases
        let later := { state with table := state.table.define ⟨type.name, .classType type, line⟩ }
        watch.Keeps state later ∧ watch.knows later type
  | _ => True

/-- The types that come out for the bases where a class is walked from the state. -/
def foundBases (index : LineIndex) (s : Ast.Statement) (state : State) : List SymbolType :=
  match s with
  | .classDefinition extent decorated _ bases _ => ((classHead index extent decorated bases).run state).1
  | _ => []

/-- Wherever the part, run from the state, comes to one of the statements, the class that it defines may be
bound with the bases that are found for it. -/
def Watch.Allows (watch : Watch) (index : LineIndex) (items : List Ast.Statement) (part : Inference Unit)
    (state : State) : Prop :=
  ∀ s ∈ items, ∀ owner visited, ComesTo (statement index owner s) visited part state →
    watch.Declares s (foundBases index s visited)

section Chains

variable {watch : Watch} (h : watch.Steady) {state : State} (hstate : watch.holds state)
  {type : SymbolType} (htype : ∀ own ∈ classesOf (some type), watch.knows state own)
include h hstate htype

namespace Watch.Steady

theorem valueType? {own : ClassType} (hmem : own ∈ classesOf (state.table.valueType? type)) :
    watch.knows state own := by
  unfold SymbolTable.valueType? at hmem
  split at hmem
  · split at hmem
    · exact h.resolveType? hstate hmem
    · cases hmem
  · exact htype own hmem

theorem elementIf {indexed : Bool} {own : ClassType}
    (hmem : own ∈ classesOf (AccessChain.elementIf state.table indexed type)) : watch.knows state own := by
  unfold AccessChain.elementIf at hmem
  split at hmem
  · exact h.elementType? hstate hmem
  · exact htype own hmem

theorem resolveMembers {members : List MemberAccess} {own : ClassType}
    (hmem : own ∈ classesOf (AccessChain.resolveMembers state.table type members)) :
    watch.knows state own := by
  induction members generalizing type with
  | nil => exact htype own hmem
  | cons access rest ih =>
    rw [AccessChain.resolveMembers] at hmem
    split at hmem
    · rename_i result hfound
      have hresult : ∀ own ∈ classesOf (some result), watch.knows state own := by
        intro own hown
        cases type with
        | classType receiver =>
          simp only [SymbolTable.member] at hfound
          split at hfound
          · rename_i signature _
            rw [← MemberLookup.found.inj hfound] at hown
            exact h.bind_resolveType? hstate hown
          · cases hfound
        | _ => cases hfound
      obtain ⟨element, helement, hrest⟩ := Option.bind_eq_some_iff.mp (mem_classesOf.mp hmem)
      refine ih (fun own hown => ?_) (mem_classesOf.mpr hrest)
      rw [← helement] at hown
      exact h.elementIf hstate hresult hown
    · cases hmem

end Watch.Steady

end Chains

section Parts

variable {watch : Watch} {known : List ClassType}

private theorem upholds_track (htracked : watch.Trackable) (f : AssignmentTracker → AssignmentTracker) :
    Upholds watch known (fun _ => []) (track f) :=
  upholds_modify fun state hstate _ => htracked state f hstate

variable (h : watch.Steady)
include h

private theorem Watch.Steady.resolveChain? {state : State} (hstate : watch.holds state)
    {chain : Option AccessChain}
    {own : ClassType} (hmem : own ∈ classesOf (chain.bind (AccessChain.resolve? state.table))) :
    watch.knows state own := by
  obtain ⟨chain, _, hchain⟩ := Option.bind_eq_some_iff.mp (mem_classesOf.mp hmem)
  obtain ⟨record, hrecord, hvalue⟩ := Option.bind_eq_some_iff.mp hchain
  obtain ⟨type, htype, helement⟩ := Option.bind_eq_some_iff.mp hvalue
  obtain ⟨element, hindexed, hmembers⟩ := Option.bind_eq_some_iff.mp helement
  have hrecord : ∀ own ∈ classesOf (some record.binding.type), watch.knows state own := by
    intro own hown
    have hfound : own ∈ classesOf ((state.table.resolve? chain.root.text).map
        fun record => record.binding.type) := by
      rwa [hrecord]
    exact h.resolve? hstate hfound
  have hvalue : ∀ own ∈ classesOf (some type), watch.knows state own := by
    intro own hown
    rw [← htype] at hown
    exact h.valueType? hstate hrecord hown
  refine h.resolveMembers hstate (fun own hown => ?_) (mem_classesOf.mpr hmembers)
  rw [← hindexed] at hown
  exact h.elementIf hstate hvalue hown

private theorem upholds_hinted (hint : Option Ast.Holder) : Upholds watch known classesOf (hinted hint) := by
  refine upholds_read (fun table => classesOf ((hint.bind Ast.Holder.typeName?).bind table.resolveType?))
    (fun _ hstate _ hmem => h.bind_resolveType? hstate hmem) fun table => ?_
  exact upholds_pure (List.subset_append_left _ _)

section Assignments

variable (htracked : watch.Trackable) (index : LineIndex) (line : Nat)
include htracked

private theorem upholds_target (e : Ast.Expr) : Upholds watch known (fun _ => []) (target index line e) := by
  have hlist (e : Ast.Expr) : Upholds watch known (fun _ => []) (defineTarget e .any line) :=
    upholds_defineAll h _ (List.nil_subset _) line
  unfold target
  cases e with
  | name part => exact upholds_pure (List.nil_subset _)
  | expressionList _ _ | list _ _ | parenthesized _ _ =>
    dsimp only
    split
    · exact (upholds_track htracked _).next fun _ => hlist _
    · exact (hlist _)
  | _ =>
    refine (upholds_expr index h true (fun _ => htracked) _).next fun _ => ?_
    exact upholds_pure (List.nil_subset _)

private theorem upholds_targets (items : List Ast.Expr) :
    Upholds watch known (fun _ => []) (targets index line items) := by
  induction items with
  | nil => exact upholds_pure (List.nil_subset _)
  | cons first rest ih =>
    refine (upholds_track htracked _).next fun _ => ?_
    refine (upholds_target h htracked index line first).next fun _ => ?_
    exact (upholds_track htracked _).next fun _ => ih

private theorem upholds_assignment {hint : Option SymbolType} (hhint : classesOf hint ⊆ known)
    (left : List Ast.Expr)
    (value : Ast.Expr) : Upholds watch known (fun _ => []) (assignment index line hint left value) := by
  have hfinish {known : List ClassType} : Upholds watch known (fun _ => []) finish :=
    fun state hstate _ => ⟨htracked state (fun tracker => tracker.finish.2) hstate, nofun⟩
  refine (upholds_targets h htracked index line left).next fun _ => ?_
  refine (upholds_track htracked _).next fun _ => ?_
  refine (upholds_expr index h true (fun _ => htracked) value).bind fun walked => ?_
  refine hfinish.next fun finished => ?_
  cases finished with
  | none => exact upholds_pure (List.nil_subset _)
  | some finished =>
    -- The type is that of the hint, of the record or of the walk.
    refine upholds_read (fun table => classesOf (finished.value.chain.bind (AccessChain.resolve? table)))
      (fun _ hstate _ hmem => h.resolveChain? hstate hmem) fun table => ?_
    refine upholds_defineAll h _ (fun own hmem => ?_) line
    rw [assignedType, classesOf_getD] at hmem
    rcases List.mem_append.mp (classesOf_or_subset _ _ hmem) with hmem | hwalked
    · rcases List.mem_append.mp (classesOf_or_subset _ _ hmem) with hown | hreplayed
      · exact List.mem_append_right _ (List.mem_append_right _ (hhint hown))
      · exact List.mem_append_left _ hreplayed
    · exact List.mem_append_right _ (List.mem_append_left _ hwalked)

end Assignments

private theorem upholds_exprStatement (htracked : watch.Trackable) (index : LineIndex) (line : Nat)
    (items : List Ast.Expr) (assigns augments : Bool) (hint : Option Ast.Holder) :
    Upholds watch known (fun _ => []) (expressions index line items assigns augments hint) := by
  unfold expressions
  split
  · exact upholds_exprs index h items
  refine (upholds_hinted h hint).bind fun type => ?_
  split
  · split
    · exact upholds_assignment h htracked index line (List.subset_append_left _ _) _ _
    · exact upholds_pure (List.nil_subset _)
  · split
    · rename_i type
      have hitems (items : List Ast.Expr) : Upholds watch (classesOf (some type) ++ known) (fun _ => [])
          (items.forM fun item => defineTarget item type line) := by
        induction items with
        | nil => exact upholds_pure (List.nil_subset _)
        | cons item rest ih =>
          exact (upholds_defineAll h _ (List.subset_append_left _ _) line).next fun _ => ih
      exact hitems items
    · exact upholds_exprs index h items

private theorem upholds_parameters (line : Nat) (owner : Option ClassType) (howner : ∀ own ∈ owner, own ∈ known)
    (items : List Ast.Parameter) : Upholds watch known (fun _ => []) (parameters line owner items) := by
  induction items generalizing known owner with
  | nil => exact upholds_pure (List.nil_subset _)
  | cons parameter rest ih =>
    have hrest : Upholds watch known (fun _ => []) (parameters line none rest) := ih none nofun
    have hplain (name : String) : Upholds watch known (fun _ => []) (do
        define name ((← hinted parameter.hint).getD .any) line
        parameters line none rest) := by
      refine Upholds.bind (upholds_hinted h parameter.hint) fun type => ?_
      refine (upholds_define h name ?_ line).next fun _ => ih none nofun
      rw [classesOf_getD]
      exact List.subset_append_left _ _
    unfold parameters
    split
    · split
      · rename_i own
        split
        · exact hplain _
        · refine (upholds_define h _ (fun other hmem => ?_) line).next fun _ => hrest
          rw [List.mem_singleton.mp hmem]
          exact howner own rfl
      · exact hplain _
    · exact hrest

private theorem upholds_caughtName (line : Nat) (name : Option Ast.Name) {caught : Option SymbolType}
    (hcaught : classesOf caught ⊆ known) :
    Upholds watch known (fun _ => []) (caughtName line name caught) := by
  unfold caughtName
  split
  · refine upholds_define h _ (List.Subset.trans ?_ hcaught) line
    unfold classesOf
    cases caught.bind SymbolType.class? with
    | none => exact List.nil_subset _
    | some own => exact List.Subset.refl _
  · exact upholds_pure (List.nil_subset _)

private theorem upholds_withItems (index : LineIndex) (line : Nat) (items : List Ast.WithItem) :
    Upholds watch known (fun _ => []) (withItems index line items) := by
  induction items with
  | nil => exact upholds_pure (List.nil_subset _)
  | cons item rest ih =>
    refine (upholds_optional index h item.value).next fun _ => ?_
    split
    · exact (upholds_defineAll h _ (List.nil_subset _) line).next fun _ => ih
    · exact ih

private theorem upholds_types (index : LineIndex) (line : Nat) (items : List (Option Ast.Expr)) :
    Upholds watch known (fun found => found.filterMap SymbolType.class?) (types index line items) := by
  induction items generalizing known with
  | nil => exact upholds_pure (List.nil_subset _)
  | cons e rest ih =>
    rw [types]
    refine (upholds_optional index h e).bind fun type => ih.bind fun found => upholds_pure ?_
    rw [List.filterMap_append]
    refine List.append_subset.mpr ⟨?_, List.subset_append_left _ _⟩
    have hfirst : type.toList.filterMap SymbolType.class? = classesOf type := by
      cases type with
      | none => rfl
      | some type => cases type <;> rfl
    rw [hfirst]
    exact List.Subset.trans (List.subset_append_left _ _) (List.subset_append_right _ _)

end Parts

section Tables

variable {watch : Watch} (h : watch.Steady) {state : State} (hstate : watch.holds state)
include h hstate

namespace Watch.Steady

private theorem defineOther {binding : Binding} (hnone : binding.type.class? = none) :
    watch.Keeps state { state with table := state.table.define binding } := by
  refine h.define hstate fun own hmem => ?_
  have hclass : binding.type.class? = some own := Option.mem_toList.mp hmem
  cases hnone.symm.trans hclass

theorem importModules (line : Nat) (items : List Ast.ImportAlias) :
    watch.Keeps state { state with table := state.table.importModules line items } := by
  induction items generalizing state with
  | nil => exact .refl hstate
  | cons item rest ih =>
    rw [SymbolTable.importModules]
    split
    · rename_i name _
      have hfirst : watch.Keeps state { state with table := state.table.define ⟨name, .any, line⟩ } :=
        h.defineOther hstate rfl
      exact hfirst.trans (ih hfirst.holds)
    · exact ih hstate

theorem importedType {item : Ast.ImportAlias} {own : ClassType}
    (hmem : own ∈ classesOf (some (state.table.importedType item))) : watch.knows state own := by
  unfold SymbolTable.importedType at hmem
  split at hmem
  · rename_i hrecord
    obtain ⟨name, _, hdeclared⟩ := Option.bind_eq_some_iff.mp hrecord
    exact h.reads hstate (.inr hdeclared) (Option.some.inj (mem_classesOf.mp hmem))
  · cases hmem

theorem importNames (line : Nat) (items : List Ast.ImportAlias) :
    watch.Keeps state { state with table := state.table.importNames line items } := by
  induction items generalizing state with
  | nil => exact .refl hstate
  | cons item rest ih =>
    rw [SymbolTable.importNames]
    split
    · rename_i name _
      have hfirst : watch.Keeps state
          { state with table := state.table.define ⟨name, state.table.importedType item, line⟩ } :=
        h.define hstate fun _ hmem => h.importedType hstate hmem
      exact hfirst.trans (ih hfirst.holds)
    · exact ih hstate

theorem defineImports (line : Nat) (s : Ast.Statement) :
    watch.Keeps state { state with table := state.table.defineImports line s } := by
  cases s with
  | importStatement _ items => exact h.importModules hstate line items
  | fromImportStatement _ _ items all =>
    rw [SymbolTable.defineImports]
    split
    · exact .refl hstate
    · exact h.importNames hstate line items
  | _ => exact .refl hstate

end Watch.Steady

end Tables

section Sustaining

variable {watch : Watch} {index : LineIndex} {known : List ClassType} {items : List Ast.Statement}

/-- The part of a walk leads from a state that knows some classes to one that knows all that were known, if the
classes of the statements that it comes to may be bound. -/
structure Sustains (watch : Watch) (index : LineIndex) (known : List ClassType) (items : List Ast.Statement)
    (part : Inference Unit) : Prop where
  walk : Walk .anywhere part
  keeps (state : State) (hstate : watch.holds state) (hknown : ∀ own ∈ known, watch.knows state own)
    (hallows : watch.Allows index items part state) : watch.Keeps state (state.after part)

private theorem Upholds.sustains {part : Inference Unit} (h : Upholds watch known (fun _ => []) part)
    (hwalk : Walk .anywhere part) : Sustains watch index known items part :=
  ⟨hwalk, fun state hstate hknown _ => (h state hstate hknown).1⟩

namespace Sustains

variable {α : Type} {head : Inference α} {classes : α → List ClassType} {tail : α → Inference Unit}

theorem bind (hwalk : Walk .anywhere head) (hfirst : Upholds watch known classes head)
    (hnext : ∀ value, Sustains watch index (classes value ++ known) items (tail value)) :
    Sustains watch index known items (head >>= tail) := by
  refine ⟨.bind hwalk fun value => (hnext value).walk, fun state hstate hknown hallows => ?_⟩
  obtain ⟨hkeeps, hresult⟩ := hfirst state hstate hknown
  have hboth : ∀ own ∈ classes (head.run state).1 ++ known, watch.knows (head.run state).2 own :=
    List.forall_mem_append.mpr ⟨hresult, fun own hmem => hkeeps.knows (hknown own hmem)⟩
  have hlast := (hnext (head.run state).1).keeps _ hkeeps.holds hboth fun s hmem owner visited hcomes =>
    hallows s hmem owner visited (.next hwalk hcomes)
  exact hkeeps.trans hlast

theorem next (hwalk : Walk .anywhere head) (hfirst : Upholds watch known classes head)
    (hnext : ∀ value, Sustains watch index known items (tail value)) :
    Sustains watch index known items (head >>= tail) := by
  have hnone : Upholds watch known (fun _ => []) head := fun state hstate hknown =>
    ⟨(hfirst state hstate hknown).1, List.forall_mem_nil _⟩
  exact .bind hwalk hnone hnext

theorem seq {first last : Inference Unit} (hfirst : Sustains watch index known items first)
    (hlast : Sustains watch index known items last) :
    Sustains watch index known items (first >>= fun _ => last) := by
  refine ⟨.bind hfirst.walk fun _ => hlast.walk, fun state hstate hknown hallows => ?_⟩
  have hkeeps := hfirst.keeps state hstate hknown fun s hmem owner visited hcomes =>
    hallows s hmem owner visited (.first hcomes fun _ => hlast.walk)
  have hthen := hlast.keeps _ hkeeps.holds (fun own hmem => hkeeps.knows (hknown own hmem))
    fun s hmem owner visited hcomes => hallows s hmem owner visited (.next hfirst.walk hcomes)
  exact hkeeps.trans hthen

theorem within (h : watch.Steady) {name : String} {opened closed : Nat} {body : Inference Unit}
    (hbody : Sustains watch index known items body) :
    Sustains watch index known items (within name opened closed body) := by
  refine ⟨.within trivial hbody.walk, fun state hstate hknown hallows => ?_⟩
  have hpush := h.push hstate name opened
  have hkeeps := hbody.keeps _ hpush.holds (fun own hmem => hpush.knows (hknown own hmem))
    fun s hmem owner visited hcomes => hallows s hmem owner visited (.within hcomes)
  exact (hpush.trans hkeeps).trans (h.close hkeeps.holds closed)

end Sustains

end Sustaining

section Statements

variable {watch : Watch} (index : LineIndex) {items : List Ast.Statement}

private theorem upholds_enter (h : watch.Steady) {known : List ClassType} (line : Nat) :
    Upholds watch known (fun _ => []) (enter line) := upholds_seek h _

private theorem sustains_pure {known : List ClassType} : Sustains watch index known items (pure ()) :=
  (upholds_pure (List.nil_subset _)).sustains (.pure ())

private theorem sustains_enter (h : watch.Steady) {known : List ClassType} {line : Nat} {tail : Inference Unit}
    (hlast : Sustains watch index known items tail) : Sustains watch index known items (do
      enter line
      tail) :=
  .next (walk_enter (Region.anywhere_has line)) (upholds_enter h line) fun _ => hlast

private theorem sustains_optional (h : watch.Steady) {known : List ClassType} {line : Nat} (e : Option Ast.Expr)
    {tail : Option SymbolType → Inference Unit}
    (hlast : ∀ type, Sustains watch index known items (tail type)) :
    Sustains watch index known items (optional index line e >>= tail) :=
  .next (walk_optional index (Region.anywhere_has line) e) (upholds_optional index h e) hlast

private theorem upholds_classHead (h : watch.Steady) {known : List ClassType} (extent : Ast.Extent)
    (decorated : List Ast.Holder) (bases : Option Ast.Arguments) :
    Upholds watch known (fun found => found.filterMap SymbolType.class?)
      (classHead index extent decorated bases) := by
  refine (upholds_enter h _).next fun _ => (upholds_exprs index h _).next fun _ => ?_
  exact upholds_types h index _ _

mutual

private theorem sustains_statement (h : watch.Steady) (htracked : watch.Trackable) {known : List ClassType}
    (owner : Option ClassType) (howner : ∀ own ∈ owner, own ∈ known) (s : Ast.Statement)
    (hitems : s :: s.nested ⊆ items) : Sustains watch index known items (statement index owner s) := by
  have hline := Region.anywhere_has (index.firstLine s.extent)
  obtain ⟨hself, hbelow⟩ := List.cons_subset.mp hitems
  match s with
  | .expressionStatement _ items assigns augments hint =>
    rw [statement]
    apply sustains_enter index h
    apply (upholds_exprStatement h htracked index _ items assigns augments hint).sustains
    exact walk_expressions index hline items assigns augments hint
  | .passStatement _ | .breakStatement _ | .continueStatement _ | .globalStatement _ _ _ =>
    rw [statement]
    exact (upholds_enter h _).sustains (walk_enter hline)
  | .returnStatement _ value | .delStatement _ value =>
    rw [statement]
    apply sustains_enter index h
    apply sustains_optional index h value
    exact fun _ => sustains_pure index
  | .importStatement _ _ | .fromImportStatement _ _ _ _ =>
    rw [statement]
    apply sustains_enter index h
    apply Upholds.sustains (upholds_modify fun _ hstate _ => h.defineImports hstate _ _)
    exact walk_defineImports hline _
  | .raiseStatement _ items | .assertStatement _ items =>
    rw [statement]
    apply sustains_enter index h
    exact (upholds_exprs index h items).sustains (walk_exprs index hline items)
  | .function _ decorated name parameters returns body =>
    rw [statement]
    apply sustains_enter index h
    apply Sustains.next (walk_exprs index hline _) (upholds_exprs index h _)
    intro _
    split
    · exact sustains_pure index
    · apply Sustains.next (walk_defaults index hline _) (upholds_defaults index h _)
      intro _
      apply Sustains.next (walk_define hline _ _) (upholds_define h _ (List.nil_subset _) _)
      intro _
      apply Sustains.within h
      apply Sustains.next (walk_parameters hline owner _) (upholds_parameters h _ owner howner _)
      exact fun _ => sustains_suite h htracked none nofun body hbelow
  | .classDefinition extent decorated name bases body =>
    refine ⟨walk_statement index owner _ (bounds_anywhere index _), fun state hstate hknown hallows => ?_⟩
    have hdeclares := hallows _ hself owner state .here
    let head := (classHead index extent decorated bases).run state
    obtain ⟨hkeeps, hfound⟩ := upholds_classHead index h extent decorated bases state hstate hknown
    cases hclass : Ast.classType? name body with
    | none =>
      have hlater : state.after (statement index owner (.classDefinition extent decorated name bases body)) =
          head.2 := by
        rw [State.after, statement]
        simp only [hclass]
        rfl
      rw [hlater]
      exact hkeeps
    | some declared =>
      let type := declared.inherit head.1
      -- The body is walked in a state that knows the class.
      obtain ⟨hdefine, htype⟩ :=
        hdeclares declared head.2 (index.firstLine extent) hclass hkeeps.holds hfound
      have hpush := h.push hdefine.holds type.name (index.firstLine extent)
      have hsuite : Sustains watch index (type :: known) items (suite index (some type) body) :=
        sustains_suite h htracked (some type) (by simp) body hbelow
      have hlast := hsuite.keeps _ hpush.holds (List.forall_mem_cons.mpr ⟨hpush.knows htype,
          fun own hmem => hpush.knows (hdefine.knows (hkeeps.knows (hknown own hmem)))⟩)
        fun other hmem own visited hcomes => hallows other hmem own visited
          ((ComesTo.of_class hclass index owner extent decorated bases state).trans hcomes)
      rw [State.after_class hclass]
      exact (((hkeeps.trans hdefine).trans hpush).trans hlast).trans (h.close hlast.holds _)
  | .ifStatement _ condition body others otherwise =>
    simp only [Ast.Statement.nested, List.append_subset] at hbelow
    obtain ⟨⟨hbody, hothers⟩, hotherwise⟩ := hbelow
    rw [statement]
    apply sustains_enter index h
    apply sustains_optional index h condition
    intro _
    apply (sustains_suite h htracked owner howner body hbody).seq
    apply (sustains_branches h htracked _ owner howner others hothers).seq
    exact sustains_block h htracked owner howner otherwise hotherwise
  | .whileStatement _ condition body otherwise =>
    simp only [Ast.Statement.nested, List.append_subset] at hbelow
    rw [statement]
    apply sustains_enter index h
    apply sustains_optional index h condition
    intro _
    apply (sustains_suite h htracked owner howner body hbelow.1).seq
    exact sustains_block h htracked owner howner otherwise hbelow.2
  | .forStatement _ target iterable body otherwise =>
    simp only [Ast.Statement.nested, List.append_subset] at hbelow
    rw [statement]
    apply sustains_enter index h
    apply sustains_optional index h iterable
    intro iterated
    apply Sustains.next (walk_defineLoopTarget hline target iterable iterated)
      (upholds_defineLoopTarget h _ target iterable iterated)
    intro _
    apply (sustains_suite h htracked owner howner body hbelow.1).seq
    exact sustains_block h htracked owner howner otherwise hbelow.2
  | .withStatement _ items body =>
    rw [statement]
    apply sustains_enter index h
    apply Sustains.next (walk_withItems index hline items) (upholds_withItems h index _ items)
    exact fun _ => sustains_suite h htracked owner howner body hbelow
  | .tryStatement _ body caught otherwise cleanup =>
    simp only [Ast.Statement.nested, List.append_subset] at hbelow
    obtain ⟨⟨⟨hbody, hcaught⟩, hotherwise⟩, hcleanup⟩ := hbelow
    rw [statement]
    apply sustains_enter index h
    apply (sustains_suite h htracked owner howner body hbody).seq
    apply (sustains_handlers h htracked owner howner caught hcaught).seq
    apply (sustains_block h htracked owner howner otherwise hotherwise).seq
    exact sustains_block h htracked owner howner cleanup hcleanup

private theorem sustains_statements (h : watch.Steady) (htracked : watch.Trackable) {known : List ClassType}
    (owner : Option ClassType) (howner : ∀ own ∈ owner, own ∈ known) (parts : List Ast.Statement)
    (hitems : Ast.allStatements parts ⊆ items) :
    Sustains watch index known items (statements index owner parts) := by
  match parts with
  | [] =>
    rw [statements]
    exact sustains_pure index
  | first :: rest =>
    rw [Ast.allStatements] at hitems
    obtain ⟨hfirst, hrest⟩ := List.append_subset.mp hitems
    rw [statements]
    apply (sustains_statement h htracked owner howner first hfirst).seq
    exact sustains_statements h htracked owner howner rest hrest

private theorem sustains_suite (h : watch.Steady) (htracked : watch.Trackable) {known : List ClassType}
    (owner : Option ClassType) (howner : ∀ own ∈ owner, own ∈ known) (body : Option Ast.Suite)
    (hitems : Ast.allSuite body ⊆ items) : Sustains watch index known items (suite index owner body) := by
  match body with
  | none =>
    rw [suite]
    exact sustains_pure index
  | some ⟨_, parts⟩ =>
    rw [suite]
    exact sustains_statements h htracked owner howner parts hitems

private theorem sustains_branches (h : watch.Steady) (htracked : watch.Trackable) {known : List ClassType}
    (line : Nat) (owner : Option ClassType) (howner : ∀ own ∈ owner, own ∈ known) (parts : List Ast.Branch)
    (hitems : Ast.allBranches parts ⊆ items) :
    Sustains watch index known items (branches index line owner parts) := by
  match parts with
  | [] =>
    rw [branches]
    exact sustains_pure index
  | ⟨_, condition, body⟩ :: rest =>
    rw [Ast.allBranches] at hitems
    obtain ⟨hbody, hrest⟩ := List.append_subset.mp hitems
    rw [branches]
    apply sustains_optional index h condition
    intro _
    apply (sustains_suite h htracked owner howner body hbody).seq
    exact sustains_branches h htracked line owner howner rest hrest

private theorem sustains_handlers (h : watch.Steady) (htracked : watch.Trackable) {known : List ClassType}
    (owner : Option ClassType) (howner : ∀ own ∈ owner, own ∈ known) (parts : List Ast.Handler)
    (hitems : Ast.allHandlers parts ⊆ items) :
    Sustains watch index known items (handlers index owner parts) := by
  match parts with
  | [] =>
    rw [handlers]
    exact sustains_pure index
  | ⟨extent, caught, name, body⟩ :: rest =>
    have hline := Region.anywhere_has (index.firstLine extent)
    rw [Ast.allHandlers] at hitems
    obtain ⟨hbody, hrest⟩ := List.append_subset.mp hitems
    rw [handlers]
    apply sustains_enter index h
    apply Sustains.bind (walk_optional index hline caught) (upholds_optional index h caught)
    intro type
    have hmore : ∀ own ∈ owner, own ∈ classesOf type ++ known :=
      fun own hown => List.mem_append_right _ (howner own hown)
    apply Sustains.next (walk_caughtName hline name type)
      (upholds_caughtName h _ name (List.subset_append_left _ _))
    intro _
    apply (sustains_suite h htracked owner hmore body hbody).seq
    exact sustains_handlers h htracked owner hmore rest hrest

private theorem sustains_block (h : watch.Steady) (htracked : watch.Trackable) {known : List ClassType}
    (owner : Option ClassType) (howner : ∀ own ∈ owner, own ∈ known) (part : Option Ast.Block)
    (hitems : Ast.allBlock part ⊆ items) : Sustains watch index known items (block index owner part) := by
  match part with
  | none =>
    rw [block]
    exact sustains_pure index
  | some ⟨_, body⟩ =>
    rw [block]
    exact sustains_suite h htracked owner howner body hitems

end

/-- The walk of a script keeps the property, from any state that has it. -/
theorem sustains_script (h : watch.Steady) (htracked : watch.Trackable) (source : Ast.Script) :
    Sustains watch index [] source.all (script index source) := by
  have hend : Region.anywhere.Sees (index.lastLine source.extent) := trivial
  apply (sustains_statements index h htracked none nofun source.statements (List.Subset.refl _)).seq
  apply Upholds.sustains (upholds_modify fun _ hstate _ => h.seek hstate _)
  exact .change fun table => Region.Binds.reach hend table

end Statements

section Hoisting

variable {watch : Watch} (h : watch.Steady) {state : State} (hstate : watch.holds state) (index : LineIndex)
include h hstate

namespace Watch.Steady

theorem defineNames {type : SymbolType} (htype : ∀ own ∈ classesOf (some type), watch.knows state own)
    (line : Nat) (items : List Ast.Expr) :
    watch.Keeps state { state with table := state.table.defineNames type line items } := by
  induction items generalizing state with
  | nil => exact .refl hstate
  | cons target rest ih =>
    rw [SymbolTable.defineNames]
    split
    · rename_i name _
      have hfirst : watch.Keeps state { state with table := state.table.define ⟨name, type, line⟩ } :=
        h.define hstate htype
      exact hfirst.trans (ih hfirst.holds fun own hmem => hfirst.knows (htype own hmem))
    · exact ih hstate htype

theorem hoistedType? {assigns : Bool} {hint : Option Ast.Holder} {value : Option Ast.Expr} {own : ClassType}
    (hmem : own ∈ classesOf (state.table.hoistedType? assigns hint value)) : watch.knows state own := by
  unfold SymbolTable.hoistedType? at hmem
  split at hmem
  · exact h.resolveType? hstate hmem
  · split at hmem
    · rw [classesOf_getD] at hmem
      obtain ⟨e, _, he⟩ := Option.bind_eq_some_iff.mp (mem_classesOf.mp hmem)
      obtain ⟨kind, hkind⟩ := SymbolType.exists_of_constantType? he
      cases hkind
    · cases hmem

theorem hoist {s : Ast.Statement} (hdeclares : watch.Declares s (state.table.hoistedBases s)) :
    watch.Keeps state { state with table := state.table.hoist index s } := by
  have himports := h.defineImports hstate (index.firstLine s.extent) s
  cases s with
  | classDefinition extent decorated name arguments body =>
    simp only [SymbolTable.hoist, SymbolTable.hoistedClass?]
    cases hdeclared : Ast.classType? name body with
    | none => exact .refl hstate
    | some declared =>
      refine (hdeclares declared state _ hdeclared hstate fun own hmem => ?_).1
      obtain ⟨type, htype, hown⟩ := List.mem_filterMap.mp hmem
      obtain ⟨base, _, hbase⟩ := List.mem_filterMap.mp htype
      have hnamed : own ∈
          classesOf ((base.value.bind Ast.Expr.typeName?).bind state.table.resolveType?) := by
        rw [hbase, classesOf, Option.bind_some, hown]
        exact List.mem_singleton_self own
      exact h.bind_resolveType? hstate hnamed
  | function extent decorated name items returns body =>
    simp only [SymbolTable.hoist]
    split
    · exact h.defineOther hstate rfl
    · exact .refl hstate
  | expressionStatement extent items assigns augments hint =>
    simp only [SymbolTable.hoist]
    split
    · rename_i type htype
      refine h.defineNames hstate (fun own hmem => ?_) _ _
      rw [← htype] at hmem
      exact h.hoistedType? hstate hmem
    · exact .refl hstate
  | _ => exact himports

/-- So does hoisting a script. -/
theorem hoisting (source : Ast.Script)
    (hdeclares : ∀ before s after, source.statements = before ++ s :: after →
      watch.Declares s ((before.foldl (SymbolTable.hoist index) state.table).hoistedBases s)) :
    watch.Keeps state { state with table := Hoisting.run index source state.table } := by
  unfold Hoisting.run
  generalize source.statements = items at hdeclares
  induction items generalizing state with
  | nil => exact .refl hstate
  | cons first rest ih =>
    have hhoist := h.hoist hstate index (hdeclares [] first rest rfl)
    refine hhoist.trans (ih hhoist.holds fun before s after hsplit => ?_)
    exact hdeclares (first :: before) s after (congrArg (first :: ·) hsplit)

end Watch.Steady

end Hoisting

end Inference

end QuantumScript
