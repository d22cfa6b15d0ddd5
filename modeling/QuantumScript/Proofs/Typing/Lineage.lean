import Mathlib
import QuantumScript.Analysis
import QuantumScript.Proofs.Scoping.Growth
import QuantumScript.Proofs.Typing.Inheritance
import QuantumScript.Proofs.Walking.Watches
/-!
# Lineage of classes

Every class that comes up in an analysis comes from a definition, by way of those of the types found for its
bases that are classes, and so on up to classes that were given. A base of any other type leaves nothing
behind. So a method is reported as unknown exactly if none of the classes that the class comes from declares
it, also where the class has a base of which nothing is known.
-/

namespace QuantumScript

/-- The class is the type of a binding in the table. -/
def SymbolTable.HasClass (table : SymbolTable) (own : ClassType) : Prop :=
  ∃ (id : Nat) (scope : Scope), table.scopes[id]? = some scope ∧
    ∃ binding ∈ scope.bindings, binding.type = .classType own

/-- The types that an analysis finds for the bases of a class definition: before the script is walked they are
told by the table that the statements above it made, and after that by the walk where it comes to the
definition. -/
inductive FindsBases (source : Source) (given : SymbolTable) (s : Ast.Statement) : List SymbolType → Prop
  | hoisted {before after : List Ast.Statement} (hsplit : source.script.statements = before ++ s :: after) :
      FindsBases source given s ((before.foldl (SymbolTable.hoist source.index) given).hoistedBases s)
  | walked {owner : Option ClassType} {visited : Inference.State} (hmem : s ∈ source.script.all)
      (hcomes : Inference.ComesTo (Inference.statement source.index owner s) visited
        (Inference.script source.index source.script)
        (.start (Hoisting.run source.index source.script given))) :
      FindsBases source given s (Inference.foundBases source.index s visited)

/-- The class comes from classes that are bound in a given table by definitions in the source. The methods are
those that it declares itself, followed by those of the classes among the types found for its bases. -/
inductive Lineage (source : Source) (given : SymbolTable) : ClassType → List Signature → Prop
  | given {own : ClassType} (h : given.HasClass own) : Lineage source given own own.members
  | derived {extent : Ast.Extent} {decorators : List Ast.Holder} {name : Option Ast.Name}
      {arguments : Option Ast.Arguments} {body : Option Ast.Suite} {bases : List SymbolType}
      (hfinds : FindsBases source given (.classDefinition extent decorators name arguments body) bases)
      {declared : ClassType} (hdeclared : Ast.classType? name body = some declared)
      {methods : ClassType → List Signature}
      (hbases : ∀ base ∈ bases.filterMap SymbolType.class?, Lineage source given base (methods base)) :
      Lineage source given (declared.inherit bases)
        (declared.members ++ (bases.filterMap SymbolType.class?).flatMap methods)

theorem Lineage.member?_eq_none {source : Source} {given : SymbolTable} {own : ClassType}
    {methods : List Signature} (h : Lineage source given own methods) (name : String) :
    own.member? name = none ↔ ∀ signature ∈ methods, signature.name ≠ name := by
  induction h with
  | given _ => exact ClassType.member?_eq_none
  | derived _ _ _ ih =>
    rw [ClassType.member?_inherit, Option.or_eq_none_iff, List.findSome?_eq_none_iff,
      ClassType.member?_eq_none, List.forall_mem_append, List.forall_mem_flatMap]
    exact and_congr_right fun _ => forall₂_congr ih

namespace SymbolTable

variable {table : SymbolTable} {own : ClassType}

private theorem HasClass.of_lookup {name : String} {record : Record}
    (hrecord : table.lookup? name = some record ∨ table.lookupDeclared? name = some record)
    (htype : record.binding.type = .classType own) : table.HasClass own := by
  have hfound {find : Scope → Option Binding} (hrecord : findIn table.scopes find table.live = some record)
      (hfind : ∀ scope binding, find scope = some binding → binding ∈ scope.versions name) :
      table.HasClass own := by
    obtain ⟨_, _, _, _, _, hbinding⟩ := findIn_eq_some.mp hrecord
    obtain ⟨scope, hscope, hfound⟩ := Option.bind_eq_some_iff.mp hbinding
    exact ⟨_, scope, hscope, _, (Scope.mem_versions.mp (hfind scope _ hfound)).1, htype⟩
  rcases hrecord with hlookup | hdeclared
  · exact hfound hlookup fun scope binding h => (Scope.mem_of_latestAt h).1
  · exact hfound hdeclared fun scope binding h => List.mem_of_mem_head? h

theorem HasClass.mono {later : SymbolTable} (h : table.HasClass own) (hextends : table.Extends later) :
    later.HasClass own := by
  obtain ⟨id, scope, hscope, binding, hmem, htype⟩ := h
  obtain ⟨next, hnext, hgrows⟩ := hextends id scope hscope
  have hversion := (hgrows.versions binding.name).subset (Scope.mem_versions.mpr ⟨hmem, rfl⟩)
  exact ⟨id, next, hnext, binding, (Scope.mem_versions.mp hversion).1, htype⟩

private theorem hasClass_define (h : Coherent table.scopes table.live) {binding : Binding}
    (htype : binding.type = .classType own) : (table.define binding).HasClass own := by
  have hcurrent : table.current ∈ table.live := List.mem_of_mem_head? table.head?_live
  obtain ⟨scope, hscope⟩ : ∃ scope, table.scopes[table.current]? = some scope :=
    ⟨_, List.getElem?_eq_getElem (h.lt_of_mem hcurrent)⟩
  have hlater : (table.define binding).scopes[table.current]? = some (scope.insert binding) := by
    have hscopes : (table.define binding).scopes =
        table.scopes.modify table.current fun scope => scope.insert binding := rfl
    rw [hscopes, List.getElem?_modify, hscope]
    simp
  refine ⟨_, _, hlater, ?_⟩
  rcases scope.insert_cases binding with ⟨⟨latest, hlatest, _, hsame⟩, heq⟩ | ⟨_, heq⟩
  · rw [heq]
    exact ⟨latest, (Scope.mem_versions.mp (Scope.mem_of_latestAt hlatest).1).1, hsame.trans htype⟩
  · rw [heq]
    exact ⟨binding, Scope.mem_insertSorted.mpr (.inl rfl), htype⟩

private theorem hasClass_of_step {operation : Operation} (h : (table.step operation).HasClass own) :
    table.HasClass own ∨ ∃ binding, operation = .define binding ∧ binding.type = .classType own := by
  obtain ⟨id, later, hlater, binding, hmem, htype⟩ := h
  cases hscope : table.scopes[id]? with
  | none =>
    rw [table.bindings_of_step_new operation hlater (List.getElem?_eq_none_iff.mp hscope)] at hmem
    cases hmem
  | some scope =>
    obtain ⟨next, hnext, hcases⟩ := table.step_scope operation hscope
    obtain rfl := Option.some.inj (hlater.symm.trans hnext)
    obtain rfl | ⟨_, ⟨added, rfl, rfl⟩ | ⟨line, _, rfl⟩⟩ := hcases
    · exact .inl ⟨id, _, hscope, binding, hmem, htype⟩
    · rcases scope.insert_cases added with ⟨_, heq⟩ | ⟨_, heq⟩
      · rw [heq] at hmem
        exact .inl ⟨id, _, hscope, binding, hmem, htype⟩
      · rw [heq] at hmem
        rcases Scope.mem_insertSorted.mp hmem with rfl | hmem
        · exact .inr ⟨binding, rfl, htype⟩
        · exact .inl ⟨id, _, hscope, binding, hmem, htype⟩
    · exact .inl ⟨id, _, hscope, binding, hmem, htype⟩

end SymbolTable

/-- A method that is reported as unknown is missing in a class of the table, under the name of which it is
reported. -/
def Diagnostic.Founded (table : SymbolTable) (diagnostic : Diagnostic) : Prop :=
  ∀ method receiver, diagnostic.cause = .semantic (.unknownMethod method receiver) →
    ∃ own, table.HasClass own ∧ own.name = receiver ∧ own.member? method = none

theorem Diagnostic.Founded.mono {table later : SymbolTable} {diagnostic : Diagnostic}
    (h : diagnostic.Founded table) (hextends : table.Extends later) : diagnostic.Founded later := by
  intro method receiver hcause
  obtain ⟨own, hown, hname, hmissing⟩ := h method receiver hcause
  exact ⟨own, hown.mono hextends, hname, hmissing⟩

namespace Inference

open SymbolTable
open Text (LineIndex)

variable {source : Source} {given : SymbolTable}

/-- All classes in the table have a lineage, and what is reported as unknown is missing in one of them. -/
structure State.Traced (source : Source) (given : SymbolTable) (state : State) : Prop where
  coherent : Coherent state.table.scopes state.table.live
  lineage : ∀ own, state.table.HasClass own → ∃ methods, Lineage source given own methods
  founded : ∀ diagnostic ∈ state.diagnostics, diagnostic.Founded state.table

/-- Watches the classes of the table. -/
def Watch.ofLineage (source : Source) (given : SymbolTable) : Watch :=
  ⟨State.Traced source given, fun state => state.table.HasClass⟩

private theorem Watch.keeps_step {state later : State} (h : state.Traced source given) (operation : Operation)
    (hnew : ∀ binding own, operation = .define binding → binding.type = .classType own →
      ∃ methods, Lineage source given own methods)
    (htable : later.table = state.table.step operation)
    (hdiagnostics : later.diagnostics = state.diagnostics) :
    (Watch.ofLineage source given).Keeps state later := by
  have hextends : state.table.Extends later.table := htable ▸ extends_step state.table operation
  refine ⟨⟨?_, fun own hown => ?_, fun diagnostic hmem => ?_⟩, fun hown => hown.mono hextends⟩
  · rw [htable]
    exact coherent_step h.coherent operation
  · rw [htable] at hown
    rcases hasClass_of_step hown with hown | ⟨binding, hoperation, htype⟩
    · exact h.lineage own hown
    · exact hnew binding own hoperation htype
  · rw [hdiagnostics] at hmem
    exact (h.founded diagnostic hmem).mono hextends

private theorem Watch.keeps_report {state later : State} (h : state.Traced source given)
    (htable : later.table = state.table) {found : List Diagnostic}
    (hfound : ∀ diagnostic ∈ found, diagnostic.Founded state.table)
    (hdiagnostics : later.diagnostics = state.diagnostics ++ found) :
    (Watch.ofLineage source given).Keeps state later := by
  refine ⟨⟨?_, ?_, ?_⟩, fun hown => ?_⟩
  · rw [htable]
    exact h.coherent
  · rw [htable]
    exact h.lineage
  · rw [htable, hdiagnostics]
    exact List.forall_mem_append.mpr ⟨h.founded, hfound⟩
  · exact Eq.subst (motive := fun table => SymbolTable.HasClass table _) htable.symm hown

private theorem founded_of_cause {diagnostic : Diagnostic} (table : SymbolTable)
    (h : ∀ method receiver, diagnostic.cause ≠ .semantic (.unknownMethod method receiver)) :
    diagnostic.Founded table := fun method receiver hcause => absurd hcause (h method receiver)

private theorem Watch.steady_ofLineage : (Watch.ofLineage source given).Steady where
  reads _ _ _ hrecord _ htype := .of_lookup hrecord htype
  use {state} h site := by
    refine keeps_report h rfl (fun diagnostic hmem => founded_of_cause _ fun method receiver hcause => ?_) rfl
    split at hmem
    · cases hmem
    · rw [List.mem_singleton.mp hmem] at hcause
      cases hcause
  define h binding hknown := by
    refine keeps_step h (.define binding) (fun other own hoperation htype => ?_) rfl rfl
    cases hoperation
    exact h.lineage own (hknown own (mem_classesOf.mpr (congrArg some htype)))
  seek h line := keeps_step h (.seek line) (fun _ _ hoperation => by cases hoperation) rfl rfl
  push h name line := keeps_step h (.push name line) (fun _ _ hoperation => by cases hoperation) rfl rfl
  close {state} h line := by
    refine keeps_step h (.pop line) (fun _ _ hoperation => by cases hoperation) (state.table_close line) ?_
    unfold State.close
    split <;> rfl
  check h signature table site arguments := by
    refine keeps_report h rfl (fun diagnostic hmem => ?_) rfl
    obtain ⟨finding, hcause, hcall⟩ := signature.isOfCall_check table site arguments diagnostic hmem
    refine founded_of_cause _ fun method receiver hunknown => ?_
    cases hcause.symm.trans hunknown
    cases hcall
  unknown h own hknown site hmissing := by
    refine keeps_report h rfl (List.forall_mem_singleton.mpr fun method receiver hcause => ?_) rfl
    cases hcause
    exact ⟨own, hknown, rfl, hmissing⟩

private theorem Watch.trackable_ofLineage : (Watch.ofLineage source given).Trackable :=
  fun _ _ h => ⟨⟨h.coherent, h.lineage, h.founded⟩, id⟩

private theorem Watch.declares_ofLineage {s : Ast.Statement} {bases : List SymbolType}
    (hfinds : FindsBases source given s bases) : (Watch.ofLineage source given).Declares s bases := by
  cases s with
  | classDefinition extent decorators name arguments body =>
    intro declared state line hdeclared h hbases type later
    have hlineage (base : ClassType) : ∃ methods, base ∈ bases.filterMap SymbolType.class? →
        Lineage source given base methods := by
      by_cases hbase : base ∈ bases.filterMap SymbolType.class?
      · obtain ⟨methods, hmethods⟩ := h.lineage base (hbases base hbase)
        exact ⟨methods, fun _ => hmethods⟩
      · exact ⟨[], fun hin => absurd hin hbase⟩
    obtain ⟨methods, hmethods⟩ := Classical.skolem.mp hlineage
    refine ⟨keeps_step h (.define ⟨type.name, .classType type, line⟩) ?_ rfl rfl,
      hasClass_define h.coherent rfl⟩
    intro binding own hoperation htype
    cases hoperation
    cases htype
    exact ⟨_, .derived hfinds hdeclared hmethods⟩
  | _ => trivial

/-- Among the types that come out for expressions is that of every plain name. What stands before the name does
not change what it means. -/
private theorem mem_types_of_name (index : LineIndex) {line : Nat} {base : SymbolTable}
    (hgrounded : base.Grounded)
    {value : Option Ast.Expr} {name : String} (hname : value.bind Ast.Expr.plainName? = some name)
    {record : Record} (hrecord : base.resolve? name = some record) {items : List (Option Ast.Expr)}
    (hvalue : value ∈ items) {state : State} (hinside : Inside line base [] state.table) :
    record.binding.type ∈ ((types index line items).run state).1 := by
  induction items generalizing state with
  | nil => cases hvalue
  | cons e rest ih =>
    let ran := (optional index line e).run state
    have hrun : ((types index line (e :: rest)).run state).1 =
        ran.1.toList ++ ((types index line rest).run ran.2).1 := by
      rw [types]
      rfl
    rw [hrun, List.mem_append]
    rcases List.mem_cons.mp hvalue with rfl | hvalue
    · obtain ⟨site, -, hfirst⟩ := run_optional_name index line hname state
      left
      dsimp only [ran]
      rw [hfirst, hinside.resolve?_eq hgrounded, hrecord]
      exact List.mem_singleton_self _
    · have hlocal : Local line false false (optional index line e) := local_optional index e
      right
      exact ih hvalue (hinside.trans (hlocal.stays_self state).table)

/-- The type of a base that is a plain name is found where the class is walked: it is that of the binding that
the name means above the line of the class. -/
private theorem mem_foundBases (index : LineIndex) {s : Ast.Statement} {base : Ast.Argument}
    (hbase : base ∈ s.bases)
    {name : String} (hname : base.value.bind Ast.Expr.plainName? = some name) {state : State}
    (hgrounded : state.table.Grounded) {record : Record}
    (hrecord : (state.table.seek (index.firstLine s.extent - 1)).resolve? name = some record) :
    record.binding.type ∈ foundBases index s state := by
  cases s with
  | classDefinition extent decorated _ bases _ =>
    let line := index.firstLine extent
    let above : State := { state with table := state.table.seek (line - 1) }
    have hlocal : Local line false false (decorators index line decorated) := local_exprs index _
    have hvalue : base.value ∈ (Ast.basesOf bases).map Ast.Argument.value := List.mem_map_of_mem hbase
    have habove : above.table.Grounded := hgrounded
    exact mem_types_of_name index habove hname hrecord hvalue (hlocal.stays_self above).table
  | _ => cases hbase

/-- An access reports a method as unknown if it is called and the lineage of the class that the value is of
has no method of the name, and only then. -/
private theorem access_reports {own : ClassType} {methods : List Signature}
    (h : Lineage source given own methods) (site : Site) (called : Bool) (state : State) :
    ((access (some (.classType own)) site called).run state).2.diagnostics = state.diagnostics ++
      if called ∧ ∀ signature ∈ methods, signature.name ≠ site.text then
        [.ofFinding (.unknownMethod site.text own.name) site]
      else [] := by
  rw [access, run_bind]
  simp only [SymbolTable.member, SymbolType.class?, Option.bind_some, ← h.member?_eq_none]
  cases own.member? site.text with
  | some signature =>
    have hthere : ¬(called = true ∧ some signature = none) :=
      fun hboth => Option.some_ne_none signature hboth.2
    rw [if_neg hthere, List.append_nil]
    rfl
  | none =>
    cases called with
    | false => exact (List.append_nil _).symm
    | true => rfl

private theorem access_silent {receiver : Option SymbolType} (h : receiver.bind SymbolType.class? = none)
    (site : Site) (called : Bool) (state : State) :
    ((access receiver site called).run state).2.diagnostics = state.diagnostics := by
  cases receiver with
  | none => rfl
  | some receiver =>
    cases receiver with
    | classType own => cases h
    | _ => rfl

end Inference

namespace Analysis

open Inference in
/-- Where unknown methods come from. Whatever the source and the table that its analysis starts from, every
class in the table of the analysis has a lineage, and a method is reported as unknown only if the table has a
class of the name that is reported of whose lineage, whatever the definitions are that it is read by, no
method has the name. An access to a member of a value of a class reports the member as an unknown method
exactly if it is called and no method of the lineage has its name. Nothing is reported of other values. Where
the walk comes to a class, each base that is a plain name passes on the type of the binding that the name means
above the class. The types among the bases that are no classes do not count: only what is known of a class tells
what is reported. -/
theorem unknown_method_lineage (path : Option String) (text : List Char) {given : SymbolTable}
    (hgiven : SymbolTable.Coherent given.scopes given.live) :
    let source := Source.ofText path text
    let analysis := ofSource source given
    let hoisted := Hoisting.run source.index source.script given
    (∀ own, analysis.table.HasClass own → ∃ methods, Lineage source given own methods) ∧
      (∀ diagnostic ∈ analysis.diagnostics, ∀ method receiver,
        diagnostic.cause = .semantic (.unknownMethod method receiver) →
          ∃ own, analysis.table.HasClass own ∧ own.name = receiver ∧
            ∀ methods, Lineage source given own methods → ∀ signature ∈ methods, signature.name ≠ method) ∧
      (∀ own methods, Lineage source given own methods → ∀ site called state,
        ((access (some (.classType own)) site called).run state).2.diagnostics = state.diagnostics ++
          if called ∧ ∀ signature ∈ methods, signature.name ≠ site.text then
            [.ofFinding (.unknownMethod site.text own.name) site]
          else []) ∧
      (∀ receiver : Option SymbolType, receiver.bind SymbolType.class? = none → ∀ site called state,
        ((access receiver site called).run state).2.diagnostics = state.diagnostics) ∧
      ∀ s owner visited,
        ComesTo (statement source.index owner s) visited (script source.index source.script) (.start hoisted) →
        ∀ base ∈ s.bases, ∀ name, base.value.bind Ast.Expr.plainName? = some name →
          ∀ record, (visited.table.seek (source.index.firstLine s.extent - 1)).resolve? name = some record →
            record.binding.type ∈ foundBases source.index s visited := by
  intro source analysis hoisted
  let watch := Watch.ofLineage source given
  have hsteady : watch.Steady := Watch.steady_ofLineage
  have hstart : watch.holds (.start given) := ⟨hgiven, fun own hown => ⟨_, .given hown⟩, List.forall_mem_nil _⟩
  have hhoisted : watch.holds (.start hoisted) :=
    (hsteady.hoisting hstart source.index source.script fun _ _ _ hsplit =>
      Watch.declares_ofLineage (.hoisted hsplit)).holds
  have hscript : Sustains watch source.index [] source.script.all (script source.index source.script) :=
    sustains_script source.index hsteady Watch.trackable_ofLineage source.script
  have hlast : (State.ofScript source.index source.script hoisted).Traced source given :=
    (hscript.keeps _ hhoisted (List.forall_mem_nil _) fun _ hmem _ _ hcomes =>
      Watch.declares_ofLineage (.walked hmem hcomes)).holds
  refine ⟨hlast.lineage, ?_, fun _ _ => access_reports, fun _ => access_silent, ?_⟩
  · intro diagnostic hmem method receiver hcause
    have hfounded : diagnostic.Founded analysis.table := by
      rcases List.mem_append.mp hmem with hmem | hmem
      · refine founded_of_cause _ fun method receiver hcause => ?_
        rcases List.mem_append.mp hmem with hmem | hmem
        · obtain ⟨error, _, rfl⟩ := List.mem_map.mp hmem
          cases hcause
        · obtain ⟨hint, _, hproblem⟩ := List.mem_filterMap.mp hmem
          unfold Hoisting.hintProblem? at hproblem
          split at hproblem
          · cases hproblem
          · obtain rfl := Option.some.inj hproblem
            cases hcause
      · exact hlast.founded diagnostic hmem
    obtain ⟨own, hown, hname, hmissing⟩ := hfounded method receiver hcause
    exact ⟨own, hown, hname, fun methods hmethods => (hmethods.member?_eq_none method).mp hmissing⟩
  · intro s owner visited hcomes base hbase name hname record hrecord
    have hreaches := (Hoisting.binds_run source.index source.script given).reaches.trans hcomes.reaches
    exact mem_foundBases source.index hbase hname (hreaches.coherent hgiven).grounded hrecord

/-- Of the bases of `A` one is known and has the method `f`, of the other nothing is known. So `f` is found, and
`g` is reported as a method that `A` does not have. -/
theorem unknown_base_reported :
    let text := "from m import C\nclass B:\n def f(): pass\nclass A(B, C): pass\nA().f()\nA().g()\n".toList
    let source := Source.ofText none text
    let given := SymbolTable.initial false
    let analysis := ofSource source given
    let own : ClassType := ⟨"A", [⟨"f", [], none, false⟩]⟩
    SymbolTable.Coherent given.scopes given.live ∧ analysis.table.HasClass own ∧
      analysis.diagnostics.map Diagnostic.cause = [.semantic (.unknownMethod "g" "A")] ∧
      (∃ methods, Lineage source given own methods ∧ ∃ signature ∈ methods, signature.name = "f") ∧
      ∀ methods, Lineage source given own methods → ∀ signature ∈ methods, signature.name ≠ "g" := by
  have hread : let text := "from m import C\nclass B:\n def f(): pass\nclass A(B, C): pass\nA().f()\nA().g()\n".toList
      let analysis := ofSource (Source.ofText none text) (SymbolTable.initial false)
      let f : Signature := ⟨"f", [], none, false⟩
      analysis.diagnostics.map Diagnostic.cause = [.semantic (.unknownMethod "g" "A")] ∧
        analysis.table.scopes[0]?.map (fun scope => scope.bindings.map Binding.type) =
          some [.any, .classType ⟨"B", [f]⟩, .classType ⟨"A", [f]⟩] := by
    decide +kernel
  intro text source given analysis own
  obtain ⟨hcauses, hglobal⟩ := hread
  have hgiven : SymbolTable.Coherent given.scopes given.live := SymbolTable.coherent_initial false
  have hown : analysis.table.HasClass own := by
    obtain ⟨scope, hscope, htypes⟩ := Option.map_eq_some_iff.mp hglobal
    have hmem : SymbolType.classType own ∈ scope.bindings.map Binding.type := by
      rw [htypes]
      simp [own]
    obtain ⟨binding, hbinding, htype⟩ := List.mem_map.mp hmem
    exact ⟨0, scope, hscope, binding, hbinding, htype⟩
  obtain ⟨hlineage, -, haccess, -, -⟩ := unknown_method_lineage none text hgiven
  obtain ⟨methods, hmethods⟩ := hlineage own hown
  refine ⟨hgiven, hown, hcauses, ⟨methods, hmethods, ?_⟩, fun methods hmethods => ?_⟩
  · have hfound := haccess own methods hmethods ⟨"f", ⟨0, 1⟩, ⟨0, 0, 1⟩⟩ true (.start given)
    by_contra hnone
    rw [if_pos ⟨rfl, fun signature hmem hname => hnone ⟨signature, hmem, hname⟩⟩] at hfound
    cases hfound
  · have hmissing := haccess own methods hmethods ⟨"g", ⟨0, 1⟩, ⟨0, 0, 1⟩⟩ true (.start given)
    by_contra hsome
    rw [if_neg fun hnone => hsome hnone.2] at hmissing
    cases hmissing

end Analysis

end QuantumScript
