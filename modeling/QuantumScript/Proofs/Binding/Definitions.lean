import Mathlib
import QuantumScript.Proofs.Binding.Parameters
import QuantumScript.Proofs.Walking.Declared
import QuantumScript.Proofs.Walking.Margins
import QuantumScript.Proofs.Walking.Nesting
/-!
# Definitions

A definition at the top level is bound twice: before the script is walked, and when the walk comes to it.
If its bases are plain names that mean the same both times, then both times it is bound to one type, and
the table holds one version of it.
-/

namespace QuantumScript

namespace Scope

/-- Versions of one line and type do not follow each other. So if all versions made on a line are equal,
there is at most one. -/
private theorem filter_line_of_eq {line : Nat} {binding : Binding} {versions : List Binding}
    (hsorted : Sorted versions) (hdiffer : versions.IsChain Differ)
    (hall : ∀ version ∈ versions, version.line = line → version = binding) :
    versions.filter (fun version => version.line = line) = [] ∨
      versions.filter (fun version => version.line = line) = [binding] := by
  induction versions with
  | nil => exact .inl rfl
  | cons first rest ih =>
    obtain ⟨hfirst, hrest⟩ := List.pairwise_cons.mp hsorted
    obtain ⟨hown, hothers⟩ := List.forall_mem_cons.mp hall
    have htail := ih hrest hdiffer.tail hothers
    by_cases hline : first.line = line
    · obtain rfl := hown hline
      rw [List.filter_cons_of_pos (by simpa using hline)]
      refine .inr (congrArg (first :: ·) (List.filter_eq_nil_iff.mpr fun version hmem => ?_))
      intro hsame
      have hversion : version.line = line := by simpa using hsame
      -- The version next to the first is on the line too, so it repeats the first.
      cases rest with
      | nil => cases hmem
      | cons second rest =>
        have hle := hfirst second List.mem_cons_self
        have hnext : second.line ≤ version.line := by
          rcases List.mem_cons.mp hmem with rfl | hmem
          · exact Nat.le_refl _
          · exact (List.pairwise_cons.mp hrest).1 version hmem
        obtain rfl := hothers second List.mem_cons_self (by omega)
        exact (List.isChain_cons_cons.mp hdiffer).1 ⟨rfl, rfl⟩
    · rw [List.filter_cons_of_neg (by simpa using hline)]
      exact htail

private theorem Ordered.filter_line {scope : Scope} (h : scope.Ordered) {name : String} {line : Nat}
    {binding : Binding} (hall : ∀ version ∈ scope.versions name, version.line = line → version = binding)
    (hexists : ∃ version ∈ scope.versions name, version.line = line) :
    (scope.versions name).filter (fun version => version.line = line) = [binding] := by
  obtain ⟨version, hmem, hline⟩ := hexists
  refine (filter_line_of_eq (h.versions_sorted name) (h.differ name) hall).resolve_left fun hnil => ?_
  exact List.filter_eq_nil_iff.mp hnil version hmem (by simpa using hline)

end Scope

namespace SymbolTable

/-- The type that a definition is bound to before the script is walked. -/
def definedType? (table : SymbolTable) : Ast.Statement → Option SymbolType
  | .classDefinition _ _ name bases body => (table.hoistedClass? name bases body).map .classType
  | .function _ _ name parameters returns _ => (Ast.signature? false name parameters returns).map .function
  | _ => none

private theorem isCompound_of_definedType? {table : SymbolTable} {s : Ast.Statement} {type : SymbolType}
    (h : table.definedType? s = some type) : s.isCompound = true := by
  cases s <;> first | rfl | cases h

theorem hoist_definition {table : SymbolTable} {s : Ast.Statement} {type : SymbolType} (index : Text.LineIndex)
    (h : table.definedType? s = some type) :
    table.hoist index s = table.define ⟨type.name, type, index.firstLine s.extent⟩ := by
  cases s with
  | classDefinition extent decorated name bases body =>
    obtain ⟨own, hown, rfl⟩ := Option.map_eq_some_iff.mp h
    simp only [hoist, hown]
    rfl
  | function extent decorated name parameters returns body =>
    obtain ⟨signature, hsignature, rfl⟩ := Option.map_eq_some_iff.mp h
    simp only [hoist, hsignature]
    rfl
  | _ => cases h

/-- The argument is a plain name, and the name means the class in the table. -/
def NamesClass (table : SymbolTable) (base : Ast.Argument) (name : String) (type : ClassType) : Prop :=
  base.value.bind Ast.Expr.plainName? = some name ∧ table.resolveType? name = some (.classType type)

/-- All versions of the name that the global scope has above the line are of the class. -/
def Settles (table : SymbolTable) (name : String) (type : ClassType) (line : Nat) : Prop :=
  ∀ global, table.scopes[0]? = some global →
    ∀ version ∈ global.versions name, version.line < line → version.type = .classType type

/-- On the line of the binding the global scope has no other version of its name. -/
def Alone (table : SymbolTable) (binding : Binding) : Prop :=
  ∃ global, table.scopes[0]? = some global ∧
    ∀ version ∈ global.versions binding.name, version.line = binding.line → version = binding

namespace Alone

variable {table later : SymbolTable} {binding : Binding}

theorem empty (binding : Binding) : empty.Alone binding := ⟨_, rfl, nofun⟩

theorem congr (h : table.Alone binding) (hscope : later.scopes[0]? = table.scopes[0]?) :
    later.Alone binding := by
  obtain ⟨global, hglobal, honly⟩ := h
  exact ⟨global, hscope.trans hglobal, honly⟩

theorem define (h : table.Alone binding) (hinner : table.inner = []) : (table.define binding).Alone binding := by
  obtain ⟨global, hglobal, honly⟩ := h
  refine ⟨global.insert binding, global_define hinner hglobal binding, fun version hmem hline => ?_⟩
  rcases global.insert_cases binding with ⟨_, heq⟩ | ⟨_, heq⟩ <;> rw [heq] at hmem
  · exact honly version hmem hline
  · obtain ⟨hbound, hname⟩ := Scope.mem_versions.mp hmem
    rcases Scope.mem_insertSorted.mp hbound with rfl | hbound
    · rfl
    · exact honly version (Scope.mem_versions.mpr ⟨hbound, hname⟩) hline

theorem nests {first last : Nat} (h : table.Alone binding) (hnests : Nests first last table later)
    (hline : binding.line < first ∨ last < binding.line) : later.Alone binding := by
  obtain ⟨global, hglobal, honly⟩ := h
  obtain ⟨next, hnext, hkeeps⟩ := hnests.kept 0 global hglobal
  refine ⟨next, hnext, fun version hmem hversion => ?_⟩
  obtain ⟨hbound, hname⟩ := Scope.mem_versions.mp hmem
  rcases hkeeps.bindings version hbound with hold | hother
  · exact honly version (Scope.mem_versions.mpr ⟨hold, hname⟩) hversion
  · omega

private theorem filter_line (h : table.Alone binding) (hdeclares : table.Declares binding.name binding.line)
    (hcoherent : Coherent table.scopes table.live) : ∃ global, table.scopes[0]? = some global ∧
      (global.versions binding.name).filter (fun version => version.line = binding.line) = [binding] := by
  obtain ⟨global, hglobal, honly⟩ := h
  obtain ⟨scope, hscope, hexists⟩ := hdeclares
  obtain rfl := Option.some.inj (hglobal.symm.trans hscope)
  exact ⟨global, hglobal, (hcoherent.ordered 0 global hglobal).filter_line honly hexists⟩

end Alone

/-- Where the global scope alone is open, what a name means is one of its versions there. -/
theorem mem_versions_of_resolve? {table : SymbolTable} (hinner : table.inner = []) {name : String}
    {record : Record} (h : table.resolve? name = some record) :
    ∃ global, table.scopes[0]? = some global ∧ record.binding ∈ global.versions name := by
  have hfound {find : Scope → Option Binding} (hfind : findIn table.scopes find table.live = some record) :
      ∃ global, table.scopes[0]? = some global ∧ find global = some record.binding := by
    rw [live, hinner, List.nil_append, findIn] at hfind
    split at hfind
    · rename_i binding hbinding
      obtain rfl := Option.some.inj hfind
      exact Option.bind_eq_some_iff.mp hbinding
    · cases hfind
  rcases Option.or_eq_some_iff.mp h with hlookup | ⟨_, hdeclared⟩
  · obtain ⟨global, hglobal, hlatest⟩ := hfound hlookup
    exact ⟨global, hglobal, (Scope.mem_of_latestAt hlatest).1⟩
  · obtain ⟨global, hglobal, hhead⟩ := hfound hdeclared
    exact ⟨global, hglobal, List.mem_of_mem_head? hhead⟩

private theorem exists_version_of_resolve? {table : SymbolTable} (hinner : table.inner = []) {name : String}
    (h : table.resolve? name ≠ none) :
    ∃ global, table.scopes[0]? = some global ∧ ∃ version, version ∈ global.versions name := by
  obtain ⟨record, hrecord⟩ := Option.ne_none_iff_exists'.mp h
  obtain ⟨global, hglobal, hversion⟩ := mem_versions_of_resolve? hinner hrecord
  exact ⟨global, hglobal, record.binding, hversion⟩

private theorem lookup?_of_version {table : SymbolTable} (hinner : table.inner = []) {global : Scope}
    (hglobal : table.scopes[0]? = some global) {name : String} {version : Binding}
    (hversion : version ∈ global.versions name) {position : Nat} (hline : version.line ≤ position) :
    ∃ latest ∈ global.versions name, latest.line ≤ position ∧
      (table.seek position).lookup? name = some ⟨latest, 0, 0⟩ := by
  have hsome : (global.latestAt name position).isSome = true := by
    rw [Scope.latestAt, List.getLast?_isSome]
    exact List.ne_nil_of_mem (List.mem_filter.mpr ⟨hversion, by simpa using hline⟩)
  obtain ⟨latest, hlatest⟩ := Option.isSome_iff_exists.mp hsome
  obtain ⟨hmem, hle⟩ := Scope.mem_of_latestAt hlatest
  refine ⟨latest, hmem, hle, ?_⟩
  have hlive : (table.seek position).live = [0] := by rw [live_seek, live, hinner, List.nil_append]
  rw [lookup?, hlive]
  have hscope : (table.seek position).scopes[0]? = some global := hglobal
  exact findIn_cons_of_some (by rw [hscope]; exact hlatest) []

private theorem resolve?_ne_none_of_class {table : SymbolTable} {name : String} {type : ClassType}
    (h : table.resolveType? name = some (.classType type)) : table.resolve? name ≠ none := by
  intro hnone
  unfold resolveType? at h
  rw [hnone] at h
  split at h <;> cases h

end SymbolTable

namespace Inference

open SymbolTable
open Text (LineIndex)

/-- Whatever is walked in a scope of its own, the scopes that were there stay as they are. -/
theorem scopes_within {name : String} {opened closed : Nat} {body : Inference Unit}
    (hbody : Walk .anywhere body) (state : State) {id : Nat} (hid : id < state.table.scopes.length) :
    ((Inference.within name opened closed body).run state).2.table.scopes[id]? = state.table.scopes[id]? := by
  let pushed := state.table.push name opened
  have haround := @Walk.around _ _ _ hbody pushed [] { state with table := pushed } (Surrounds.refl pushed)
    trivial
  rw [run_within, State.table_close]
  generalize (body.run { state with table := pushed }).2 = later at haround
  have hinner : later.table.inner = state.table.scopes.length :: state.table.inner := haround.table.inner
  have hscopes : pushed.scopes =
      state.table.scopes ++ [⟨name, opened, none, some state.table.current, state.table.openCount, []⟩] := rfl
  have hless : id < pushed.scopes.length := by
    rw [hscopes, List.length_append]
    exact Nat.lt_add_right _ hid
  have hkept := haround.table.kept id hless (Nat.ne_of_lt hid)
  rw [hscopes, List.getElem?_append_left hid] at hkept
  simp only [SymbolTable.step, SymbolTable.pop, hinner, SymbolTable.reach, SymbolTable.seek]
  rw [List.getElem?_modify_ne _ _ (Nat.ne_of_gt hid), hkept]

private theorem run_types_names (index : LineIndex) (line : Nat) {reached : SymbolTable}
    (bases : List Ast.Argument)
    (state : State) (h : ∀ base ∈ bases, ∃ name type, reached.NamesClass base name type ∧
      ∃ record, state.table.lookup? name = some record ∧ record.binding.type = .classType type) :
    let ran := (types index line (bases.map Ast.Argument.value)).run state
    ran.1 = bases.filterMap (fun base => (base.value.bind Ast.Expr.typeName?).bind reached.resolveType?) ∧
      ran.2.table = state.table := by
  induction bases generalizing state with
  | nil => exact ⟨rfl, rfl⟩
  | cons base rest ih =>
    obtain ⟨⟨name, type, ⟨hname, htype⟩, record, hrecord, hclass⟩, hrest⟩ := List.forall_mem_cons.mp h
    have hresolve : state.table.resolve? name = some record := by
      rw [resolve?, hrecord]
      rfl
    obtain ⟨site, -, hfirst⟩ := run_optional_name index line hname state
    rw [hresolve, Option.map_some, hclass] at hfirst
    obtain ⟨htypes, htable⟩ := ih (state.use site) hrest
    have hrun : (types index line ((base :: rest).map Ast.Argument.value)).run state =
        let ran := (types index line (rest.map Ast.Argument.value)).run (state.use site)
        (.classType type :: ran.1, ran.2) := by
      rw [List.map_cons, types, run_bind]
      rw [hfirst]
      rfl
    rw [hrun]
    refine ⟨?_, htable⟩
    have hfound : (base.value.bind Ast.Expr.typeName?).bind reached.resolveType? = some (.classType type) := by
      rw [Ast.Expr.typeName?_of_plainName? hname]
      exact htype
    rw [List.filterMap_cons_some (by exact hfound)]
    exact congrArg (.classType type :: ·) htypes

/-- A definition is bound to the type that it was bound to before, if its bases mean the same. Of the
scopes that are there this changes the current one, and nothing that stands in the definition changes any. -/
private theorem scopes_definition (index : LineIndex) {reached : SymbolTable} {s : Ast.Statement}
    {type : SymbolType}
    (htype : reached.definedType? s = some type) (state : State) (hgrounded : state.table.Grounded)
    (hbases : ∀ base ∈ s.bases, ∃ name own, reached.NamesClass base name own ∧
      ∃ record, (state.table.seek (index.firstLine s.extent - 1)).lookup? name = some record ∧
        record.binding.type = .classType own) {id : Nat} (hid : id < state.table.scopes.length) :
    ((statement index none s).run state).2.table.scopes[id]? =
      (state.table.define ⟨type.name, type, index.firstLine s.extent⟩).scopes[id]? := by
  let line := index.firstLine s.extent
  let above := state.table.seek (line - 1)
  let binding : Binding := ⟨type.name, type, line⟩
  -- What comes before the binding keeps all scopes, and what comes behind it is walked in a scope of its own.
  have hscopes (name : String) {reading : State} (hreading : Inside line above [] reading.table)
      {body : Inference Unit} (hbody : Walk .anywhere body) :
      ((Inference.within name line (index.lastLine s.extent) body).run
        { reading with table := reading.table.define binding }).2.table.scopes[id]? =
          (state.table.define binding).scopes[id]? := by
    have hinside := hreading.define_both binding
    have hlength : (above.define binding).scopes.length = state.table.scopes.length := List.length_modify _ _ _
    rw [scopes_within hbody _ (Nat.lt_of_lt_of_le (hlength ▸ hid) hinside.length_le)]
    exact hinside.scopes (hlength ▸ hid)
  cases s with
  | function extent decorated name parameters returns body =>
    obtain ⟨signature, hsignature, rfl⟩ := Option.map_eq_some_iff.mp htype
    have hbody : Walk .anywhere (do
        Inference.parameters line none (Ast.parametersOf parameters)
        suite index none body) :=
      .bind (walk_parameters (Region.anywhere_has line) none _) fun _ =>
        walk_suite index none body (boundsSuite_anywhere index body)
    refine Eq.trans ?_ (hscopes signature.name (inside_atName index extent decorated parameters state) hbody)
    rw [statement]
    simp only [Option.isSome_none, hsignature]
    rfl
  | classDefinition extent decorated name bases body =>
    obtain ⟨own, hown, rfl⟩ := Option.map_eq_some_iff.mp htype
    obtain ⟨declared, hdeclared, rfl⟩ := Option.map_eq_some_iff.mp hown
    have hlocal : Local line false false (decorators index line decorated) := local_exprs index _
    have hstays := hlocal.stays_self { state with table := above }
    let reading := ((decorators index line decorated).run { state with table := above }).2
    obtain ⟨htypes, htable⟩ := run_types_names index line (Ast.basesOf bases) reading fun base hbase => by
      obtain ⟨name, own, hnames, record, hrecord, hclass⟩ := hbases base hbase
      exact ⟨name, own, hnames, record, (hstays.table.lookup?_eq hgrounded name).trans hrecord, hclass⟩
    let typed := (types index line ((Ast.basesOf bases).map Ast.Argument.value)).run reading
    have hinside : Inside line above [] typed.2.table := htable.symm ▸ hstays.table
    let own := declared.inherit typed.1
    have hbody := walk_suite index (some own) body (boundsSuite_anywhere index body)
    refine Eq.trans ?_ (hscopes own.name hinside hbody)
    rw [statement]
    simp only [hdeclared]
    have hbinding : binding = ⟨own.name, .classType own, line⟩ := congrArg
      (fun found => (⟨(declared.inherit found).name, .classType (declared.inherit found), line⟩ : Binding))
      htypes.symm
    rw [hbinding]
    rfl
  | _ => cases htype

end Inference

open SymbolTable Inference

section Passes

variable {index : Text.LineIndex} {before after : List Ast.Statement} {s : Ast.Statement} {type : SymbolType}
  {last : Nat}

private theorem nests_reached (builtins : Bool)
    (habove : (Region.between 0 (index.firstLine s.extent - 1)).BoundsAll index before) :
    Nests 0 (index.firstLine s.extent - 1) empty (before.foldl (hoist index) (initial builtins)) :=
  Nests.of_binds ((binds_initial builtins _).trans (Region.Binds.hoistAll habove.has _))

private theorem alone_hoisted (builtins : Bool)
    (habove : (Region.between 0 (index.firstLine s.extent - 1)).BoundsAll index before)
    (hbelow : (Region.between (index.firstLine s.extent + 1) last).BoundsAll index after)
    (htype : (before.foldl (hoist index) (initial builtins)).definedType? s = some type) :
    let hoisted := (before ++ s :: after).foldl (hoist index) (initial builtins)
    hoisted.Alone ⟨type.name, type, index.firstLine s.extent⟩ ∧
      hoisted.Declares type.name (index.firstLine s.extent) := by
  intro hoisted
  let binding : Binding := ⟨type.name, type, index.firstLine s.extent⟩
  let reached := before.foldl (hoist index) (initial builtins)
  have hline := index.one_le_line s.extent.span.start
  have hnests : Nests 0 (index.firstLine s.extent - 1) empty reached := nests_reached builtins habove
  have hinner : reached.inner = [] := hnests.inner
  have hglobal : IsGlobal reached := ⟨hinner, (hnests.kept 0 _ rfl).imp fun _ => And.left⟩
  have hbinds : (Region.between (index.firstLine s.extent + 1) last).Binds (reached.define binding) hoisted := by
    have hsplit : hoisted = after.foldl (hoist index) (reached.define binding) := by
      simp only [hoisted, List.foldl_append, List.foldl_cons]
      rw [hoist_definition index htype]
    rw [hsplit]
    exact Region.Binds.hoistAll hbelow.has _
  have halone := (Alone.empty binding).nests hnests (.inr (Nat.sub_lt hline Nat.one_pos))
  exact ⟨(halone.define hinner).nests (Nests.of_binds hbinds) (.inl (Nat.lt_succ_self _)),
    (declares_define hglobal binding).mono hbinds.reaches.toExtends⟩

private theorem alone_walked {reached final : SymbolTable} {state : State}
    (habove : (Region.between 0 (index.firstLine s.extent - 1)).BoundsAll index before)
    (hbelow : (Region.between (index.firstLine s.extent + 1) last).BoundsAll index after)
    (hcoherent : Coherent state.table.scopes state.table.live) (hinner : state.table.inner = [])
    (htype : reached.definedType? s = some type)
    (hreached : reached.inner = [] ∧ Nests 0 (index.firstLine s.extent - 1) empty reached)
    (hextends : reached.Extends state.table)
    (halone : state.table.Alone ⟨type.name, type, index.firstLine s.extent⟩)
    (hfinal : final.scopes = ((statements index none (before ++ s :: after)).run state).2.table.scopes)
    (hbases : ∀ base ∈ s.bases, ∃ name own, reached.NamesClass base name own ∧
      final.Settles name own (index.firstLine s.extent)) :
    final.Alone ⟨type.name, type, index.firstLine s.extent⟩ := by
  let line := index.firstLine s.extent
  have hline : 1 ≤ line := index.one_le_line s.extent.span.start
  let first := ((statements index none before).run state).2
  let second := ((statement index none s).run first).2
  have hlast : final.scopes = ((statements index none after).run second).2.table.scopes := by
    rw [hfinal, run_statements_append, statements, run_bind]
  have hfirst := walk_statements index none before habove
  have hlater := walk_statements index none after hbelow
  have hnests : Nests 0 (line - 1) state.table first.table := (hfirst.nests state).1
  have hopened : first.table.inner = [] := hnests.inner.trans hinner
  have hgrounded : first.table.Grounded := ((hfirst.reaches state).coherent hcoherent).grounded
  have hleft : first.table.Extends ((statements index none after).run second).2.table := by
    have hreaches := (walk_statement index none s (bounds_anywhere index s)).reaches first
    exact (hreaches.trans (hlater.reaches second)).toExtends
  refine (Alone.nests ?_ (hlater.nests second).1 (.inl (Nat.lt_succ_self _))).congr (by rw [hlast])
  -- The definition itself: its bases are found above its line, as the classes that they were before.
  refine ((halone.nests hnests (.inr (Nat.sub_lt hline Nat.one_pos))).define hopened).congr ?_
  refine scopes_definition index htype first hgrounded (fun base hbase => ?_) (hgrounded 0 (by simp [live]))
  obtain ⟨name, own, ⟨hname, hclass⟩, hsettles⟩ := hbases base hbase
  refine ⟨name, own, ⟨hname, hclass⟩, ?_⟩
  obtain ⟨scope, hscope, version, hversion⟩ :=
    exists_version_of_resolve? hreached.1 (resolve?_ne_none_of_class hclass)
  have habove : version.line ≤ line - 1 := by
    obtain ⟨next, hnext, hkeeps⟩ := hreached.2.kept 0 _ rfl
    obtain rfl := Option.some.inj (hscope.symm.trans hnext)
    exact ((hkeeps.bindings version (Scope.mem_versions.mp hversion).1).resolve_left List.not_mem_nil).2
  obtain ⟨global, hglobal, hgrows⟩ := (hextends.trans (hfirst.reaches state).toExtends) 0 scope hscope
  obtain ⟨latest, hlatest, hle, hlookup⟩ := lookup?_of_version hopened hglobal
    ((hgrows.versions name).mem hversion) habove
  obtain ⟨whole, hwhole, hmore⟩ := hleft 0 global hglobal
  rw [← hlast] at hwhole
  refine ⟨_, hlookup, hsettles whole hwhole latest ((hmore.versions name).mem hlatest) ?_⟩
  exact Nat.lt_of_le_sub_one hline hle

end Passes

/-- Both passes bind a definition at the top level to one type, on a source without errors, if the bases of
a class are plain names that mean classes when the first pass comes to it, and all versions of these
names made above it are of these classes. So the definition has exactly one version on its line, after
the first pass and after the second. -/
theorem definition_stored_once (builtins : Bool) (path : Option String) (text : List Char) :
    let source := Source.ofText path text
    let hoisted := Hoisting.run source.index source.script (initial builtins)
    let final := (Inference.State.ofScript source.index source.script hoisted).table
    source.parsed.errors = [] → ∀ before s after, source.script.statements = before ++ s :: after →
      let reached := before.foldl (hoist source.index) (initial builtins)
      let line := source.index.firstLine s.extent
      ∀ type, reached.definedType? s = some type →
        (∀ base ∈ s.bases, ∃ name own, reached.NamesClass base name own ∧ final.Settles name own line) →
        ∀ table ∈ [hoisted, final], ∃ global, table.scopes[0]? = some global ∧
          (global.versions type.name).filter (fun version => version.line = line) =
            [⟨type.name, type, line⟩] := by
  intro source hoisted final herrors before s after hsplit reached line type htype hbases
  obtain ⟨habove, last, hbelow⟩ := bounds_apart herrors hsplit (isCompound_of_definedType? htype)
  have hrun : hoisted = (before ++ s :: after).foldl (hoist source.index) (initial builtins) :=
    congrArg (List.foldl (hoist source.index) (initial builtins)) hsplit
  obtain ⟨halone, hdeclares⟩ := @alone_hoisted source.index _ _ _ _ _ builtins habove hbelow htype
  rw [← hrun] at halone hdeclares
  have hbinds := Hoisting.binds_run source.index source.script (initial builtins)
  have hcoherent : Coherent hoisted.scopes hoisted.live := hbinds.reaches.coherent (coherent_initial builtins)
  have hinner : hoisted.inner = [] := hbinds.inner.trans (isGlobal_initial builtins).inner
  have hnests := nests_reached builtins habove
  have hextends : reached.Extends hoisted := by
    rw [hrun, List.foldl_append]
    exact (Region.Binds.hoistAll (fun _ _ => Region.anywhere_has _) reached).reaches.toExtends
  have hreaches := State.reaches_ofScript source.index source.script hoisted
  have hscopes : final.scopes = ((statements source.index none (before ++ s :: after)).run
      (.start hoisted)).2.table.scopes := by
    rw [← hsplit]
    dsimp only [final]
    rw [State.ofScript_eq]
    rfl
  have hwalked : final.Alone ⟨type.name, type, line⟩ :=
    @alone_walked source.index _ _ _ _ _ _ _ (.start hoisted) habove hbelow hcoherent hinner htype
      ⟨hnests.inner, hnests⟩ hextends halone hscopes hbases
  refine List.forall_mem_cons.mpr ⟨halone.filter_line hdeclares hcoherent, List.forall_mem_singleton.mpr ?_⟩
  exact hwalked.filter_line (hdeclares.mono hreaches.toExtends) (hreaches.coherent hcoherent)

/-- A class that inherits a method gets the same type both times. -/
theorem heir_stored_once :
    let source := Source.ofText none "class A:\n def f(): pass\nclass B(A): pass\n".toList
    let hoisted := Hoisting.run source.index source.script (initial false)
    let final := (State.ofScript source.index source.script hoisted).table
    let heir : SymbolType := .classType ⟨"B", [⟨"f", [], none, false⟩]⟩
    ∀ table ∈ [hoisted, final], ∃ global, table.scopes[0]? = some global ∧
      (global.versions "B").filter (fun version => version.line = 3) = [⟨"B", heir, 3⟩] := by
  have hread : let source := Source.ofText none "class A:\n def f(): pass\nclass B(A): pass\n".toList
      let hoisted := Hoisting.run source.index source.script (initial false)
      let reached := (source.script.statements.take 1).foldl (hoist source.index) (initial false)
      let base : ClassType := ⟨"A", [⟨"f", [], none, false⟩]⟩
      let heir : SymbolType := .classType ⟨"B", [⟨"f", [], none, false⟩]⟩
      source.parsed.errors = [] ∧ source.script.statements.length = 2 ∧
        source.script.statements[1]?.map (fun s => (source.index.firstLine s.extent, reached.definedType? s,
          s.bases.map fun base => base.value.bind Ast.Expr.plainName?)) = some (3, some heir, [some "A"]) ∧
        reached.resolveType? "A" = some (.classType base) ∧
        (State.ofScript source.index source.script hoisted).table.scopes[0]? =
          some ⟨"global", 0, none, none, 0, [⟨"A", .classType base, 1⟩, ⟨"B", heir, 3⟩]⟩ := by
    cbv
  intro source hoisted final heir
  obtain ⟨herrors, hlength, hsecond, hclass, hglobal⟩ := hread
  obtain ⟨first, second, hsplit⟩ := List.length_eq_two.mp hlength
  rw [hsplit] at hsecond hclass
  obtain ⟨hline, hpair⟩ := Prod.mk.inj (Option.some.inj hsecond)
  obtain ⟨htype, hnames⟩ := Prod.mk.inj hpair
  have hstored := definition_stored_once false none _ herrors [first] second [] hsplit heir htype
    fun base hbase => by
      have hname : base.value.bind Ast.Expr.plainName? = some "A" := by
        have hmem := List.mem_map_of_mem (f := fun base : Ast.Argument => base.value.bind Ast.Expr.plainName?) hbase
        rw [hnames] at hmem
        exact List.mem_singleton.mp hmem
      refine ⟨"A", _, ⟨hname, hclass⟩, fun global hscope version hmem _ => ?_⟩
      obtain rfl := Option.some.inj (hglobal.symm.trans hscope)
      obtain rfl := List.mem_singleton.mp hmem
      rfl
  rw [hline] at hstored
  exact hstored

end QuantumScript
