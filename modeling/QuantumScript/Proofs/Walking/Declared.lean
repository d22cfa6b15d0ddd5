import Mathlib
import QuantumScript.Analysis
import QuantumScript.Proofs.Walking.Uses
/-!
# Names of the top level

What a statement at the top level declares is bound before the script is walked, so it can be used
anywhere, also above the statement. Only a hint that names a type which is not known yet keeps a
statement from declaring its names.
-/

namespace QuantumScript

namespace Ast.Statement

/-- The names that a statement at the top level declares: those of a definition, of an import, and of
the targets of an assignment or of a declaration with a hint that are plain names. -/
def declares : Statement → List String
  | .function _ _ name _ _ _ | .classDefinition _ _ name _ _ => (name.bind Name.text).toList
  | .importStatement _ aliases => aliases.filterMap ImportAlias.boundName
  | .fromImportStatement _ _ aliases all =>
    if all then [] else aliases.filterMap ImportAlias.boundName
  | .expressionStatement _ exprs assigns _ hint =>
    if assigns then exprs.dropLast.filterMap Expr.plainName?
    else if hint.isSome then exprs.filterMap Expr.plainName?
    else []
  | _ => []

/-- The type that the hint of the statement names is known to the table. A declaration without a value
has to have a hint that names a type. -/
def Typed (table : SymbolTable) : Statement → Prop
  | .expressionStatement _ _ assigns _ hint =>
    match hint.bind Holder.typeName? with
    | some typeName => table.resolveType? typeName ≠ none
    | none => assigns = true
  | _ => True

end Ast.Statement

namespace SymbolTable

/-- The global scope holds a version of the name that is made on the line. -/
def Declares (table : SymbolTable) (name : String) (line : Nat) : Prop :=
  ∃ scope, table.scopes[0]? = some scope ∧ ∃ version ∈ scope.versions name, version.line = line

theorem Declares.mono {table later : SymbolTable} {name : String} {line : Nat}
    (h : table.Declares name line) (hextends : table.Extends later) : later.Declares name line := by
  obtain ⟨scope, hscope, version, hversion, hline⟩ := h
  obtain ⟨next, hnext, hgrows⟩ := hextends 0 scope hscope
  exact ⟨next, hnext, version, (hgrows.versions name).mem hversion, hline⟩

private theorem Declares.resolve?_ne_none {table : SymbolTable} {name : String} {line : Nat}
    (h : table.Declares name line) (hcoherent : Coherent table.scopes table.live) :
    table.resolve? name ≠ none := by
  obtain ⟨scope, hscope, version, hversion, _⟩ := h
  have hglobal : 0 ∈ table.live := List.mem_of_getLast? hcoherent.global_live
  have hfound (ids : List Nat) (hmem : 0 ∈ ids) :
      findIn table.scopes (fun scope => (scope.versions name).head?) ids ≠ none := by
    induction ids with
    | nil => cases hmem
    | cons id outer ih =>
      rw [findIn]
      split
      · simp
      · rename_i hnone
        rcases List.mem_cons.mp hmem with rfl | hmem
        · rw [hscope, Option.bind_some, List.head?_eq_none_iff] at hnone
          rw [hnone] at hversion
          cases hversion
        · exact ih hmem
  intro hnone
  exact hfound table.live hglobal (Option.or_eq_none_iff.mp hnone).2

section Global

variable {table : SymbolTable} {line : Nat}

/-- The current scope is the global one, and it is there. -/
structure IsGlobal (table : SymbolTable) : Prop where
  inner : table.inner = []
  exists_scope : ∃ scope, table.scopes[0]? = some scope

theorem isGlobal_initial (builtins : Bool) : IsGlobal (initial builtins) := by
  obtain ⟨scope, hscope, _⟩ := (coherent_initial builtins).global
  refine ⟨?_, scope, hscope⟩
  cases builtins with
  | false => rfl
  | true =>
    have hkept (bindings : List Binding) (table : SymbolTable) :
        (bindings.foldl define table).inner = table.inner := by
      induction bindings generalizing table with
      | nil => rfl
      | cons binding rest ih => exact ih (table.define binding)
    exact hkept Builtins.bindings empty

theorem IsGlobal.mono {later : SymbolTable} {region : Inference.Region} (h : IsGlobal table)
    (hbinds : region.Binds table later) : IsGlobal later := by
  obtain ⟨scope, hscope⟩ := h.exists_scope
  obtain ⟨next, hnext, _⟩ := hbinds.reaches.toExtends 0 scope hscope
  exact ⟨hbinds.inner.trans h.inner, next, hnext⟩

theorem IsGlobal.define (h : IsGlobal table) (binding : Binding) : IsGlobal (table.define binding) :=
  h.mono (Inference.Region.Binds.define table (Inference.Region.anywhere_has binding.line))

/-- Where the global scope alone is open, names are bound in it. -/
theorem global_define {scope : Scope} (hinner : table.inner = []) (hscope : table.scopes[0]? = some scope)
    (binding : Binding) : (table.define binding).scopes[0]? = some (scope.insert binding) := by
  have hcurrent : table.current = 0 := by rw [current, hinner, List.headD_nil]
  have hscopes : (table.define binding).scopes =
      table.scopes.modify 0 fun scope => scope.insert binding := by rw [← hcurrent]; rfl
  rw [hscopes, List.getElem?_modify_eq, hscope]
  rfl

theorem declares_define (h : IsGlobal table) (binding : Binding) :
    (table.define binding).Declares binding.name binding.line := by
  obtain ⟨scope, hscope⟩ := h.exists_scope
  exact ⟨_, global_define h.inner hscope binding, scope.exists_version_insert binding⟩

private theorem declares_items {α : Type} {nameOf : α → Option String}
    (bindAll : SymbolTable → List α → SymbolTable)
    (hskip : ∀ table item rest, nameOf item = none → bindAll table (item :: rest) = bindAll table rest)
    (hbind : ∀ table item rest name, nameOf item = some name →
      ∃ type, bindAll table (item :: rest) = bindAll (table.define ⟨name, type, line⟩) rest)
    (hkeep : ∀ (table : SymbolTable) items, table.Extends (bindAll table items)) (h : IsGlobal table)
    {items : List α} {name : String} (hname : name ∈ items.filterMap nameOf) :
    (bindAll table items).Declares name line := by
  induction items generalizing table with
  | nil => cases hname
  | cons item rest ih =>
    cases hitem : nameOf item with
    | none =>
      rw [List.filterMap_cons_none hitem] at hname
      rw [hskip table item rest hitem]
      exact ih h hname
    | some own =>
      rw [List.filterMap_cons_some hitem] at hname
      obtain ⟨type, heq⟩ := hbind table item rest own hitem
      rw [heq]
      rcases List.mem_cons.mp hname with rfl | hname
      · exact (declares_define h ⟨name, type, line⟩).mono (hkeep _ rest)
      · exact ih (h.define _) hname

private theorem declares_defineNames (h : IsGlobal table) (type : SymbolType) {targets : List Ast.Expr}
    {name : String} (hname : name ∈ targets.filterMap Ast.Expr.plainName?) :
    (table.defineNames type line targets).Declares name line := by
  refine declares_items (fun table items => table.defineNames type line items) ?_ ?_ ?_ h hname
  · intro table item rest hitem
    simp only [defineNames, hitem]
  · intro table item rest name hitem
    exact ⟨type, by simp only [defineNames, hitem]⟩
  · intro table items
    have hbinds := Inference.Region.Binds.defineNames (Inference.Region.anywhere_has line) table type items
    exact hbinds.reaches.toExtends

private theorem declares_importModules (h : IsGlobal table) {items : List Ast.ImportAlias} {name : String}
    (hname : name ∈ items.filterMap Ast.ImportAlias.boundName) :
    (table.importModules line items).Declares name line := by
  refine declares_items (fun table items => table.importModules line items) ?_ ?_ ?_ h hname
  · intro table item rest hitem
    simp only [importModules, hitem]
  · intro table item rest name hitem
    exact ⟨.any, by simp only [importModules, hitem]⟩
  · intro table items
    have hbinds := Inference.Region.Binds.importModules (Inference.Region.anywhere_has line) table items
    exact hbinds.reaches.toExtends

private theorem declares_importNames (h : IsGlobal table) {items : List Ast.ImportAlias} {name : String}
    (hname : name ∈ items.filterMap Ast.ImportAlias.boundName) :
    (table.importNames line items).Declares name line := by
  refine declares_items (fun table items => table.importNames line items) ?_ ?_ ?_ h hname
  · intro table item rest hitem
    simp only [importNames, hitem]
  · intro table item rest name hitem
    exact ⟨table.importedType item, by simp only [importNames, hitem]⟩
  · intro table items
    have hbinds := Inference.Region.Binds.importNames (Inference.Region.anywhere_has line) table items
    exact hbinds.reaches.toExtends

private theorem isSome_hoistedType? {assigns : Bool} {hint : Option Ast.Holder} (value : Option Ast.Expr) :
    (table.hoistedType? assigns hint value).isSome ↔
      match hint.bind Ast.Holder.typeName? with
      | some typeName => table.resolveType? typeName ≠ none
      | none => assigns = true := by
  unfold hoistedType?
  cases hint.bind Ast.Holder.typeName? with
  | none => cases assigns <;> simp
  | some typeName => exact Option.isSome_iff_ne_none

private theorem declares_hoist (h : IsGlobal table) (index : Text.LineIndex) {statement : Ast.Statement}
    (htyped : statement.Typed table) {name : String} (hname : name ∈ statement.declares) :
    (table.hoist index statement).Declares name (index.firstLine statement.extent) := by
  cases statement with
  | function extent decorators own parameters returns body =>
    simp only [Ast.Statement.declares, Option.mem_toList] at hname
    simp only [hoist, Ast.signature?, hname, Option.map_some]
    exact declares_define h _
  | classDefinition extent decorators own bases body =>
    simp only [Ast.Statement.declares, Option.mem_toList] at hname
    have hclass : ∃ type, table.hoistedClass? own bases body = some type ∧ type.name = name := by
      refine ⟨_, by rw [hoistedClass?, Ast.classType?, hname]; rfl, ?_⟩
      exact ClassType.name_inherit _ _
    obtain ⟨type, htype, rfl⟩ := hclass
    simp only [hoist, htype]
    exact declares_define h _
  | importStatement extent aliases => exact declares_importModules h hname
  | fromImportStatement extent path aliases all =>
    cases all with
    | true => cases hname
    | false => exact declares_importNames h hname
  | expressionStatement extent exprs assigns augments hint =>
    obtain ⟨type, htype⟩ := Option.isSome_iff_exists.mp
      ((isSome_hoistedType? exprs.getLast?).mpr htyped)
    simp only [hoist, htype]
    cases assigns with
    | true => exact declares_defineNames h type hname
    | false =>
      cases hint with
      | none => cases hname
      | some hint => exact declares_defineNames h type hname
  | _ => cases hname

private theorem hoist_of_not_typed (index : Text.LineIndex) {statement : Ast.Statement}
    (htyped : ¬statement.Typed table) : table.hoist index statement = table := by
  cases statement with
  | expressionStatement extent exprs assigns augments hint =>
    have htype : table.hoistedType? assigns hint exprs.getLast? = none := by
      rw [← Option.not_isSome_iff_eq_none, isSome_hoistedType?]
      exact htyped
    simp only [hoist, htype]
  | _ => exact absurd trivial htyped

end Global

end SymbolTable

open SymbolTable

/-- What the top level of a script declares may be used anywhere in it: the global scope holds a version
of each name on the line of its statement before the script is walked, and the walk reports none of
them as not defined. A statement declares nothing if its hint does not name a type that is known when
the statement is come to. -/
theorem hoisted_resolves (builtins : Bool) (index : Text.LineIndex) (extent : Ast.Extent)
    (before after : List Ast.Statement) (statement : Ast.Statement) :
    let script : Ast.Script := ⟨extent, before ++ statement :: after⟩
    let reached := before.foldl (hoist index) (initial builtins)
    let hoisted := Hoisting.run index script (initial builtins)
    (statement.Typed reached → ∀ name ∈ statement.declares,
      hoisted.Declares name (index.firstLine statement.extent) ∧
        ∀ diagnostic ∈ (Inference.State.ofScript index script hoisted).diagnostics,
          diagnostic.cause ≠ .semantic (.undefinedSymbol name)) ∧
    (¬statement.Typed reached → reached.hoist index statement = reached) := by
  intro script reached hoisted
  refine ⟨?_, hoist_of_not_typed index⟩
  intro htyped name hname
  have hglobal : IsGlobal reached :=
    (isGlobal_initial builtins).mono
      (Inference.Region.Binds.hoistAll (fun _ _ => Inference.Region.anywhere_has _) _)
  have hrest : (reached.hoist index statement).Reaches hoisted := by
    have hsplit : hoisted = after.foldl (hoist index) (reached.hoist index statement) := by
      simp only [hoisted, script, Hoisting.run, reached, List.foldl_append, List.foldl_cons]
    rw [hsplit]
    exact (Inference.Region.Binds.hoistAll (fun _ _ => Inference.Region.anywhere_has _) _).reaches
  have hdeclares := (declares_hoist hglobal index htyped hname).mono hrest.toExtends
  refine ⟨hdeclares, ?_⟩
  intro diagnostic hmem hcause
  obtain ⟨hreports, huses⟩ := Inference.State.reports_ofScript index script hoisted
  have hundefined : diagnostic.isUndefined = true := by rw [Diagnostic.isUndefined, hcause]
  have hreported := List.mem_filter.mpr ⟨hmem, hundefined⟩
  rw [hreports] at hreported
  obtain ⟨use, huse, hreport⟩ := List.mem_filterMap.mp hreported
  have hcoherent : Coherent hoisted.scopes hoisted.live :=
    (Hoisting.binds_run index script (initial builtins)).reaches.coherent (coherent_initial builtins)
  have hreaches := huses use huse
  unfold Use.report? at hreport
  split at hreport
  · cases hreport
  · rename_i hnone
    obtain rfl := Option.some.inj hreport
    obtain rfl : use.site.text = name := by simpa [Diagnostic.ofFinding] using hcause
    exact (hdeclares.mono hreaches.toExtends).resolve?_ne_none (hreaches.coherent hcoherent) hnone

/-- Where the hint names a class that is declared further down, the name is reported above the
statement. -/
theorem forward_hint_undefined :
    let source := Source.ofText none "x\nx: A = 1\nclass A: pass\n".toList
    source.parsed.errors = [] ∧
      source.script.statements.flatMap Ast.Statement.declares = ["x", "A"] ∧
      (Analysis.ofSource source (SymbolTable.initial false)).diagnostics.map Diagnostic.cause =
        [.semantic (.undefinedSymbol "x")] := by
  cbv

end QuantumScript
