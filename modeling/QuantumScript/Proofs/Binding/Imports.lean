import QuantumScript.Proofs.Ordering.Hoisting
import QuantumScript.Proofs.Walking.Visits
import QuantumScript.Source
/-!
# Imported names

What is imported from a module gets the type of the earliest binding of its name. In the global scope this is
that of the builtin of the name, for the builtins are bound above the script and nothing comes before them.
A name that is no builtin, or that an open scope inside the global one binds, gets what the script binds it
to.
-/

namespace QuantumScript

/-- The builtin of a name, where the builtins are known. -/
def Builtins.first? (builtins : Bool) (name : String) : Option Binding :=
  if builtins then bindings.find? fun binding => binding.name = name else none

namespace SymbolTable

/-- The earliest binding of a name in one scope. -/
def firstIn? (table : SymbolTable) (name : String) (id : Nat) : Option Binding :=
  table.scopes[id]?.bind fun scope => (scope.versions name).head?

/-- The type that a name has where it is imported. The innermost of the open scopes inside the global one that
binds the name decides. If none of them does it is the builtin, and if there is none the earliest binding of
the name at the top level of the script. -/
inductive ImportType (builtins : Bool) (table : SymbolTable) (name : String) : SymbolType → Prop
  | inner {before after id version} (hinner : table.inner = before ++ id :: after)
      (hbefore : ∀ other ∈ before, table.firstIn? name other = none)
      (hversion : table.firstIn? name id = some version) : ImportType builtins table name version.type
  | builtin {binding} (hinner : ∀ id ∈ table.inner, table.firstIn? name id = none)
      (hbuiltin : Builtins.first? builtins name = some binding) :
      ImportType builtins table name binding.type
  | script {version} (hinner : ∀ id ∈ table.inner, table.firstIn? name id = none)
      (hbuiltin : Builtins.first? builtins name = none) (hversion : table.firstIn? name 0 = some version) :
      ImportType builtins table name version.type
  | unknown (hinner : ∀ id ∈ table.inner, table.firstIn? name id = none)
      (hbuiltin : Builtins.first? builtins name = none) (hversion : table.firstIn? name 0 = none) :
      ImportType builtins table name .any

/-- Binding the names of `from .. import` on a line leads to the later table. They are bound one after the
other, each to the type that the imported name has then. -/
inductive Imports (builtins : Bool) (line : Nat) : SymbolTable → List Ast.ImportAlias → SymbolTable → Prop
  | done {table} : Imports builtins line table [] table
  | unnamed {table item rest later} (hbound : item.boundName = none)
      (h : Imports builtins line table rest later) : Imports builtins line table (item :: rest) later
  | bound {table item rest later name type} (hbound : item.boundName = some name)
      (himported : ∀ imported ∈ item.importedName, ImportType builtins table imported type)
      (hnone : item.importedName = none → type = .any)
      (h : Imports builtins line (table.define ⟨name, type, line⟩) rest later) :
      Imports builtins line table (item :: rest) later

private theorem head?_versions_foldl_insert {scope : Scope} (hordered : scope.Ordered) {line : Nat}
    {bindings : List Binding} (hlines : ∀ binding ∈ bindings, binding.line = line) {name : String}
    (hfirst : ∀ first ∈ (scope.versions name).head?, first.line ≤ line) :
    ((bindings.foldl Scope.insert scope).versions name).head? =
      (scope.versions name).head?.or (bindings.find? fun binding => binding.name = name) := by
  induction bindings generalizing scope with
  | nil => simp
  | cons binding rest ih =>
    obtain ⟨hline, hlines⟩ := List.forall_mem_cons.mp hlines
    have hhead : ((scope.insert binding).versions name).head? =
        (scope.versions name).head?.or (if binding.name = name then some binding else none) := by
      rw [Scope.head?_versions_insert hordered]
      by_cases hname : binding.name = name
      · cases hold : (scope.versions name).head? with
        | none => simp [hname]
        | some first =>
          have hle : first.line ≤ binding.line := hline ▸ hfirst first hold
          simp [hname, Nat.not_lt.mpr hle]
      · simp [hname]
    rw [List.foldl_cons, ih (hordered.insert binding) hlines, hhead, List.find?_cons]
    · by_cases hname : binding.name = name <;> simp [hname]
    · intro first hmem
      rw [hhead, Option.mem_def, Option.or_eq_some_iff] at hmem
      rcases hmem with hmem | ⟨-, hmem⟩
      · exact hfirst first hmem
      · by_cases hname : binding.name = name
        · obtain rfl : binding = first := by simpa [hname] using hmem
          exact Nat.le_of_eq hline
        · simp [hname] at hmem

private theorem line_builtins : ∀ binding ∈ Builtins.bindings, binding.line = 0 := by decide +kernel

private theorem firstIn?_initial (builtins : Bool) (name : String) :
    (initial builtins).firstIn? name 0 = Builtins.first? builtins name := by
  cases builtins with
  | false => rfl
  | true =>
    have hbound (bindings : List Binding) (hlines : ∀ binding ∈ bindings, binding.line = 0) :
        (bindings.foldl define empty).firstIn? name 0 =
          bindings.find? fun binding => binding.name = name := by
      have hcurrent : 0 = empty.current := rfl
      rw [firstIn?, getElem?_foldl_define, if_pos hcurrent]
      exact head?_versions_foldl_insert (Coherent.empty.ordered 0 _ rfl) hlines nofun
    rw [initial, if_pos rfl, withBuiltins, defineBuiltins, hbound _ line_builtins, Builtins.first?, if_pos rfl]

private theorem firstIn?_run {table : SymbolTable} (hcoherent : Coherent table.scopes table.live)
    {name : String}
    {first : Binding} (hfirst : table.firstIn? name 0 = some first) (hline : first.line = 0)
    (operations : List Operation) : (table.run operations).firstIn? name 0 = some first := by
  induction operations generalizing table with
  | nil => exact hfirst
  | cons operation rest ih =>
    refine ih (coherent_step hcoherent operation) ?_
    obtain ⟨scope, hscope, hversion⟩ := Option.bind_eq_some_iff.mp hfirst
    obtain ⟨next, hnext, hcases⟩ := table.step_scope operation hscope
    refine Option.bind_eq_some_iff.mpr ⟨next, hnext, ?_⟩
    rcases hcases with rfl | ⟨-, ⟨binding, -, rfl⟩ | ⟨line, -, rfl⟩⟩
    · exact hversion
    · rw [Scope.head?_versions_insert (hcoherent.ordered 0 scope hscope), hversion]
      simp [hline]
    · exact hversion

private theorem firstIn?_of_builtin {builtins : Bool} {table : SymbolTable}
    (h : (initial builtins).Reaches table)
    {name : String} {binding : Binding} (hbuiltin : Builtins.first? builtins name = some binding) :
    table.firstIn? name 0 = some binding := by
  obtain ⟨operations, rfl⟩ := h
  refine firstIn?_run (coherent_initial builtins) ((firstIn?_initial builtins name).trans hbuiltin) ?_ operations
  rw [Builtins.first?, Option.ite_none_right_eq_some] at hbuiltin
  exact line_builtins binding (List.mem_of_find?_eq_some hbuiltin.2)

private theorem binding_findIn (scopes : List Scope) (find : Scope → Option Binding) (ids : List Nat) :
    (findIn scopes find ids).map Record.binding = ids.findSome? fun id => scopes[id]?.bind find := by
  induction ids with
  | nil => rfl
  | cons id rest ih =>
    rw [findIn, List.findSome?_cons]
    cases scopes[id]?.bind find with
    | none => exact ih
    | some binding => rfl

private theorem binding_lookupDeclared? (table : SymbolTable) (name : String) :
    (table.lookupDeclared? name).map Record.binding =
      (table.inner.findSome? (table.firstIn? name)).or (table.firstIn? name 0) := by
  rw [lookupDeclared?, binding_findIn, live, List.findSome?_append, List.findSome?_singleton]
  rfl

private theorem importType_of_reaches {builtins : Bool} {table : SymbolTable}
    (h : (initial builtins).Reaches table)
    {item : Ast.ImportAlias} {name : String} (hname : item.importedName = some name) :
    ImportType builtins table name (table.importedType item) := by
  have htype : table.importedType item = ((((table.inner.findSome? (table.firstIn? name)).or
      (table.firstIn? name 0))).map Binding.type).getD .any := by
    rw [importedType, hname, Option.bind_some, ← binding_lookupDeclared?]
    cases table.lookupDeclared? name <;> rfl
  rw [htype]
  cases hfound : table.inner.findSome? (table.firstIn? name) with
  | some version =>
    obtain ⟨before, id, after, hinner, hversion, hbefore⟩ := List.findSome?_eq_some_iff.mp hfound
    exact .inner hinner hbefore hversion
  | none =>
    have hinner := List.findSome?_eq_none_iff.mp hfound
    cases hbuiltin : Builtins.first? builtins name with
    | some binding =>
      rw [firstIn?_of_builtin h hbuiltin]
      exact .builtin hinner hbuiltin
    | none =>
      cases hglobal : table.firstIn? name 0 with
      | some version => exact .script hinner hbuiltin hglobal
      | none => exact .unknown hinner hbuiltin hglobal

private theorem imports_importNames {builtins : Bool} (line : Nat) (items : List Ast.ImportAlias)
    {table : SymbolTable} (h : (initial builtins).Reaches table) :
    Imports builtins line table items (table.importNames line items) := by
  induction items generalizing table with
  | nil => exact .done
  | cons item rest ih =>
    rw [importNames]
    cases hbound : item.boundName with
    | none => exact .unnamed hbound (ih h)
    | some name =>
      refine .bound hbound (fun imported himported => importType_of_reaches h himported) (fun hnone => ?_)
        (ih (h.trans (.step table (.define _))))
      rw [importedType, hnone, Option.bind_none]

open Inference in
/-- What `from .. import` binds its names to, in every script. Where the first pass comes to such a statement
and where the walk of the second one comes to it, in whatever blocks it stands, every name on it is bound on its
line to the type that the rule tells for what is imported, in the table that the pass has made by then. In the
first pass no scope inside the global one is open. What the second binds is kept to the end of the script. It
comes to every statement, if no definition around it lacks its name. -/
theorem from_import_binds (builtins : Bool) (path : Option String) (text : List Char) :
    let source := Source.ofText path text
    let hoisted := Hoisting.run source.index source.script (initial builtins)
    let walk := script source.index source.script
    (∀ before s after, source.script.statements = before ++ s :: after →
      let table := before.foldl (hoist source.index) (initial builtins)
      table.inner = [] ∧ ∀ extent origin aliases, s = .fromImportStatement extent origin aliases false →
        Imports builtins (source.index.firstLine extent) table aliases (hoist source.index table s)) ∧
    (∀ owner s visited, ComesTo (statement source.index owner s) visited walk (.start hoisted) →
      ∀ extent origin aliases, s = .fromImportStatement extent origin aliases false →
        let line := source.index.firstLine extent
        let later := (visited.after (statement source.index owner s)).table
        Imports builtins line (visited.table.seek (line - 1)) aliases later ∧
          later.Extends (State.ofScript source.index source.script hoisted).table) ∧
    (∀ s ∈ source.script.all, (∀ d ∈ source.script.all, s ∈ d.nested → d.isWalked = true) →
      ∃ owner visited, ComesTo (statement source.index owner s) visited walk (.start hoisted)) := by
  intro source hoisted walk
  refine ⟨?_, ?_, fun s hmem hnamed => visits_script source.index source.script hnamed hmem (.start hoisted)⟩
  · intro before s after _ table
    have hbinds : Region.anywhere.Binds (initial builtins) table :=
      Region.Binds.hoistAll (fun _ _ => Region.anywhere_has _) _
    refine ⟨hbinds.inner.trans (isGlobal_initial builtins).inner, ?_⟩
    rintro extent origin aliases rfl
    exact imports_importNames _ aliases hbinds.reaches
  · rintro owner _ visited hcomes extent origin aliases rfl line later
    have hreaches : (initial builtins).Reaches visited.table :=
      (Hoisting.binds_run source.index source.script _).reaches.trans hcomes.reaches
    have hlater : later = (visited.table.seek (line - 1)).importNames line aliases := by
      dsimp only [later]
      rw [State.after, statement]
      rfl
    constructor
    · rw [hlater]
      exact imports_importNames line aliases (hreaches.trans (.step visited.table (.seek _)))
    · exact hcomes.reaches_after.toExtends

end SymbolTable

end QuantumScript
