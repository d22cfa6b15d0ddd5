import QuantumScript.Proofs.Ordering.Definitions
/-!
# Hoisting definitions in any order

Hoisting makes a table of which only the kinds matter for names: which names are bound, and which of them
are bound to classes. The kinds are a set, to which each definition adds its own. So they do not depend on
the order of the definitions, and neither does what is warned of in their hints.
-/

namespace QuantumScript

/-- The name of the binding, and whether it is bound to a class. -/
def Binding.kind (binding : Binding) : String × Bool := (binding.name, binding.type.class?.isSome)

/-- The kinds of all bindings of the scope. -/
def Scope.kinds (scope : Scope) : Set (String × Bool) := {kind | ∃ binding ∈ scope.bindings, binding.kind = kind}

private theorem Scope.kinds_insert (scope : Scope) (binding : Binding) :
    (scope.insert binding).kinds = {binding.kind} ∪ scope.kinds := by
  ext kind
  rw [Set.mem_union, Set.mem_singleton_iff]
  rcases scope.insert_cases binding with ⟨⟨latest, hlatest, _, htype⟩, heq⟩ | ⟨_, heq⟩ <;> rw [heq]
  · obtain ⟨hmem, hname⟩ := mem_versions.mp (mem_of_latestAt hlatest).1
    have hrepeated : binding.kind ∈ scope.kinds := ⟨latest, hmem, by rw [Binding.kind, hname, htype, Binding.kind]⟩
    exact ⟨.inr, fun h => h.elim (fun heq => heq ▸ hrepeated) id⟩
  · constructor
    · rintro ⟨other, hmem, rfl⟩
      rcases mem_insertSorted.mp hmem with rfl | hmem
      · exact .inl rfl
      · exact .inr ⟨other, hmem, rfl⟩
    · rintro (rfl | ⟨other, hmem, rfl⟩)
      · exact ⟨binding, mem_insertSorted.mpr (.inl rfl), rfl⟩
      · exact ⟨other, mem_insertSorted.mpr (.inr hmem), rfl⟩

private theorem Scope.names_eq_image (scope : Scope) : scope.names = Prod.fst '' scope.kinds := by
  ext name
  constructor
  · rintro ⟨version, hversion⟩
    obtain ⟨hmem, rfl⟩ := mem_versions.mp hversion
    exact ⟨version.kind, ⟨version, hmem, rfl⟩, rfl⟩
  · rintro ⟨kind, ⟨binding, hmem, rfl⟩, rfl⟩
    exact ⟨binding, mem_versions.mpr ⟨hmem, rfl⟩⟩

/-- No name is bound to a class and to something else. -/
def Distinct (kinds : Set (String × Bool)) : Prop := ∀ name, (name, true) ∈ kinds → (name, false) ∉ kinds

namespace Ast.Statement

def isClass : Statement → Bool
  | .classDefinition _ _ _ _ _ => true
  | _ => false

/-- What a definition is bound to: a class or not, under its name. -/
def definedKind? (s : Statement) : Option (String × Bool) := s.definedName?.map (·, s.isClass)

@[simp] theorem definedKind?_place (g : Placing) (s : Statement) : (s.place g).definedKind? = s.definedKind? := by
  have hclass : (s.place g).isClass = s.isClass := by
    cases s <;> rfl
  rw [definedKind?, definedName?_place, hclass, definedKind?]

end Ast.Statement

namespace SymbolTable

open Text (LineIndex)

/-- The kinds of the global scope. -/
def kinds (table : SymbolTable) : Set (String × Bool) := table.scopes[0]?.elim ∅ Scope.kinds

variable {table : SymbolTable}

private theorem kinds_define (h : IsGlobal table) (binding : Binding) :
    (table.define binding).kinds = {binding.kind} ∪ table.kinds := by
  obtain ⟨scope, hscope⟩ := h.exists_scope
  rw [kinds, global_define h.inner hscope, kinds, hscope]
  exact scope.kinds_insert binding

/-- The kinds tell the outline. -/
theorem outline_eq_kinds (h : IsGlobal table) : table.outline = [Prod.fst '' table.kinds] := by
  obtain ⟨scope, hscope⟩ := h.exists_scope
  rw [outline_global h.inner, namesAt, kinds, hscope]
  exact congrArg (fun names => [names]) scope.names_eq_image

/-- The kinds tell which names are names of types. -/
theorem isSome_resolveType? (h : IsGlobal table) (hdistinct : Distinct table.kinds) (name : String) :
    (table.resolveType? name).isSome = true ↔
      (Primitive.ofName? name).isSome = true ∨ (name, true) ∈ table.kinds := by
  unfold resolveType?
  cases hprimitive : Primitive.ofName? name with
  | some kind => simp
  | none =>
    rw [Option.isSome_none, or_iff_right Bool.false_ne_true]
    cases hrecord : table.resolve? name with
    | none =>
      refine ⟨fun h => absurd h Bool.false_ne_true, fun hmem => ?_⟩
      have houtline := resolve?_eq_none.mp hrecord
      rw [outline_eq_kinds h] at houtline
      exact absurd ⟨_, List.mem_singleton_self _, (name, true), hmem, rfl⟩ houtline
    | some record =>
      obtain ⟨global, hglobal, hversion⟩ := mem_versions_of_resolve? h.inner hrecord
      obtain ⟨hbound, hname⟩ := Scope.mem_versions.mp hversion
      obtain ⟨⟨own, type, line⟩, scope, level⟩ := record
      have hkind : (name, type.class?.isSome) ∈ table.kinds := by
        rw [kinds, hglobal]
        exact ⟨_, hbound, by rw [Binding.kind, hname]⟩
      cases type with
      | classType type => exact ⟨fun _ => hkind, fun _ => rfl⟩
      | primitive | function =>
        exact ⟨fun h => absurd h Bool.false_ne_true, fun hmem => absurd hkind (hdistinct name hmem)⟩

private theorem kinds_hoist (h : IsGlobal table) (index : LineIndex) {s : Ast.Statement} {kind : String × Bool}
    (hkind : s.definedKind? = some kind) :
    IsGlobal (table.hoist index s) ∧ (table.hoist index s).kinds = {kind} ∪ table.kinds := by
  obtain ⟨name, hname, rfl⟩ := Option.map_eq_some_iff.mp hkind
  obtain ⟨type, htype, hown, hclass⟩ : ∃ type, table.definedType? s = some type ∧ type.name = name ∧
      type.class?.isSome = s.isClass := by
    cases s with
    | function extent decorated own parameters returns body =>
      have hsome : own.bind Ast.Name.text = some name := hname
      exact ⟨_, by rw [definedType?, Ast.signature?, hsome]; rfl, rfl, rfl⟩
    | classDefinition extent decorated own bases body =>
      have hsome : own.bind Ast.Name.text = some name := hname
      obtain ⟨type, htype, heq⟩ : ∃ type, table.hoistedClass? own bases body = some type ∧ type.name = name :=
        ⟨_, by rw [hoistedClass?, Ast.classType?, hsome]; rfl, ClassType.name_inherit _ _⟩
      exact ⟨.classType type, by rw [definedType?, htype]; rfl, heq, rfl⟩
    | _ => cases hname
  rw [hoist_definition index htype, kinds_define h, Binding.kind, hown, hclass]
  exact ⟨h.define _, rfl⟩

private theorem kinds_foldl {α : Type} {add : SymbolTable → α → SymbolTable}
    {kindOf : α → Option (String × Bool)}
    {items : List α} (hadd : ∀ item ∈ items, ∀ table, IsGlobal table → ∃ kind, kindOf item = some kind ∧
      IsGlobal (add table item) ∧ (add table item).kinds = {kind} ∪ table.kinds) (h : IsGlobal table) :
    IsGlobal (items.foldl add table) ∧
      (items.foldl add table).kinds = {kind | kind ∈ items.filterMap kindOf} ∪ table.kinds := by
  induction items generalizing table with
  | nil => exact ⟨h, by simp⟩
  | cons item rest ih =>
    obtain ⟨hfirst, hrest⟩ := List.forall_mem_cons.mp hadd
    obtain ⟨kind, hkind, hglobal, hstep⟩ := hfirst table h
    obtain ⟨hlast, hrun⟩ := ih hrest hglobal
    refine ⟨hlast, ?_⟩
    rw [List.foldl_cons, hrun, hstep, List.filterMap_cons_some hkind]
    ext other
    simp only [Set.mem_union, Set.mem_ofPred_eq, Set.mem_singleton_iff, List.mem_cons]
    exact or_left_comm.trans or_assoc.symm

/-- Hoisting definitions adds their kinds. -/
theorem kinds_foldl_hoist (h : IsGlobal table) (index : LineIndex) {items : List Ast.Statement}
    (hkinds : ∀ s ∈ items, s.definedKind?.isSome = true) :
    IsGlobal (items.foldl (hoist index) table) ∧ (items.foldl (hoist index) table).kinds =
      {kind | kind ∈ items.filterMap Ast.Statement.definedKind?} ∪ table.kinds := by
  refine kinds_foldl (fun s hmem table hglobal => ?_) h
  obtain ⟨kind, hkind⟩ := Option.isSome_iff_exists.mp (hkinds s hmem)
  exact ⟨kind, hkind, kinds_hoist hglobal index hkind⟩

/-- At the start no more than the builtins are bound. -/
theorem kinds_initial (builtins : Bool) :
    ∀ kind ∈ (initial builtins).kinds, kind ∈ Builtins.bindings.map Binding.kind := by
  have hempty : empty.kinds = ∅ := by
    ext kind
    constructor
    · rintro ⟨binding, hmem, -⟩
      cases hmem
    · intro hmem
      cases hmem
  intro kind hmem
  cases builtins with
  | false => exact absurd hmem (hempty ▸ Set.notMem_empty kind)
  | true =>
    have hadd : ∀ binding ∈ Builtins.bindings, ∀ table, IsGlobal table → ∃ kind,
        some binding.kind = some kind ∧ IsGlobal (table.define binding) ∧
          (table.define binding).kinds = {kind} ∪ table.kinds := fun binding _ table hglobal =>
      ⟨binding.kind, rfl, hglobal.define binding, kinds_define hglobal binding⟩
    have hrun : (initial true).kinds =
        {kind | kind ∈ Builtins.bindings.filterMap fun binding => some binding.kind} ∪ empty.kinds :=
      (kinds_foldl hadd (isGlobal_initial false)).2
    rw [hrun, hempty, Set.union_empty, Set.mem_ofPred_eq, List.filterMap_eq_map'] at hmem
    exact hmem

/-- No builtin is bound twice. -/
theorem nodup_builtins : (Builtins.bindings.map Binding.name).Nodup := by decide +kernel

end SymbolTable

end QuantumScript
