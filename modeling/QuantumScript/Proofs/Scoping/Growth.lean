import QuantumScript.Proofs.Scoping.Past
/-!
# Growth of the symbol table

Nothing that was ever stored in a table goes away. A scope stays where it is, and all that may happen to
it is that it gets further bindings while it is the current one, and that it is closed, once.
-/

namespace QuantumScript

namespace Scope

/-- A scope and what becomes of it. Its versions are all still there, in their order. -/
structure Grows (scope later : Scope) : Prop where
  name : later.name = scope.name
  openedAt : later.openedAt = scope.openedAt
  parent : later.parent = scope.parent
  depth : later.depth = scope.depth
  versions : ∀ name, (scope.versions name).Sublist (later.versions name)

namespace Grows

theorem refl (scope : Scope) : scope.Grows scope :=
  ⟨rfl, rfl, rfl, rfl, fun _ => List.Sublist.refl _⟩

theorem trans {scope later last : Scope} (h : scope.Grows later) (hlast : later.Grows last) :
    scope.Grows last :=
  ⟨hlast.name.trans h.name, hlast.openedAt.trans h.openedAt, hlast.parent.trans h.parent,
    hlast.depth.trans h.depth, fun name => (h.versions name).trans (hlast.versions name)⟩

end Grows

@[simp] theorem name_insert (scope : Scope) (binding : Binding) :
    (scope.insert binding).name = scope.name := by
  rcases scope.insert_cases binding with ⟨_, heq⟩ | ⟨_, heq⟩ <;> rw [heq]

theorem mem_insertSorted {binding other : Binding} {bindings : List Binding} :
    other ∈ insertSorted binding bindings ↔ other = binding ∨ other ∈ bindings := by
  induction bindings with
  | nil => rw [insertSorted, List.mem_singleton, List.mem_nil_iff, or_false]
  | cons first rest ih =>
    rw [insertSorted]
    split
    · rw [List.mem_cons, ih, List.mem_cons]
      exact or_left_comm
    · rw [List.mem_cons]

private theorem sublist_insertSorted (binding : Binding) (bindings : List Binding) :
    bindings.Sublist (insertSorted binding bindings) := by
  induction bindings with
  | nil => exact List.nil_sublist _
  | cons other rest ih =>
    rw [insertSorted]
    split
    · exact ih.cons_cons other
    · exact List.sublist_cons_self _ _

private theorem length_insertSorted (binding : Binding) (bindings : List Binding) :
    (insertSorted binding bindings).length = bindings.length + 1 := by
  induction bindings with
  | nil => rfl
  | cons other rest ih =>
    rw [insertSorted]
    split
    · rw [List.length_cons, ih, List.length_cons]
    · rfl

/-- Whether or not the bindings are in order, one that is added leaves all others where they are. -/
theorem grows_insert (scope : Scope) (binding : Binding) : scope.Grows (scope.insert binding) := by
  refine ⟨by simp, by simp, by simp, by simp, fun name => ?_⟩
  rcases scope.insert_cases binding with ⟨_, heq⟩ | ⟨_, heq⟩ <;> rw [heq]
  exact (sublist_insertSorted binding scope.bindings).filter _

theorem length_insert_le (scope : Scope) (binding : Binding) :
    (scope.insert binding).bindings.length ≤ scope.bindings.length + 1 := by
  rcases scope.insert_cases binding with ⟨_, heq⟩ | ⟨_, heq⟩ <;> rw [heq]
  · exact Nat.le_succ _
  · exact Nat.le_of_eq (length_insertSorted binding scope.bindings)

/-- A binding that is left out is left out for one of its line. -/
theorem exists_version_insert (scope : Scope) (binding : Binding) :
    ∃ version ∈ (scope.insert binding).versions binding.name, version.line = binding.line := by
  rcases scope.insert_cases binding with ⟨⟨latest, hlatest, hline, _⟩, heq⟩ | ⟨_, heq⟩
  · rw [heq]
    exact ⟨latest, (mem_of_latestAt hlatest).1, hline⟩
  · rw [heq]
    exact ⟨binding, mem_versions.mpr ⟨mem_insertSorted.mpr (.inl rfl), rfl⟩, rfl⟩

end Scope

namespace SymbolTable

/-- Every scope of the table is a scope of the later one, and has grown into it. -/
def Extends (table later : SymbolTable) : Prop :=
  ∀ (id : Nat) (scope : Scope), table.scopes[id]? = some scope →
    ∃ next, later.scopes[id]? = some next ∧ scope.Grows next

namespace Extends

theorem refl (table : SymbolTable) : table.Extends table :=
  fun _ scope hscope => ⟨scope, hscope, Scope.Grows.refl scope⟩

theorem trans {table later last : SymbolTable} (h : table.Extends later)
    (hlast : later.Extends last) : table.Extends last := by
  intro id scope hscope
  obtain ⟨next, hnext, hgrows⟩ := h id scope hscope
  obtain ⟨final, hfinal, hmore⟩ := hlast id next hnext
  exact ⟨final, hfinal, hgrows.trans hmore⟩

end Extends

/-- A scope that is there is still there after an operation: one that is opened comes behind all, and
any other operation changes at most one. -/
theorem step_scope (table : SymbolTable) (operation : Operation) {id : Nat} {scope : Scope}
    (hscope : table.scopes[id]? = some scope) :
    ∃ next, (table.step operation).scopes[id]? = some next ∧
      (next = scope ∨ table.current = id ∧
        ((∃ binding, operation = .define binding ∧ next = scope.insert binding) ∨
          ∃ line, operation = .pop line ∧ next = { scope with closedAt := some line })) := by
  cases operation with
  | push name line =>
    refine ⟨scope, ?_, .inl rfl⟩
    have hscopes : (table.step (.push name line)).scopes =
        table.scopes ++ [⟨name, line, none, some table.current, table.openCount, []⟩] := rfl
    rw [hscopes, List.getElem?_append_left (List.getElem?_eq_some_iff.mp hscope).1, hscope]
  | pop line =>
    rcases table.step_pop line with ⟨_, heq⟩ | ⟨inner, outer, hlive, _, _, hscopes, _⟩
    · exact ⟨scope, by rw [heq, hscope], .inl rfl⟩
    have hcurrent : table.current = inner := by
      have hhead := table.head?_live
      rw [hlive] at hhead
      exact (Option.some.inj hhead).symm
    rw [hscopes, List.getElem?_modify, hscope]
    refine ⟨_, rfl, ?_⟩
    by_cases hid : inner = id
    · exact .inr ⟨hcurrent.trans hid, .inr ⟨line, rfl, if_pos hid⟩⟩
    · exact .inl (if_neg hid)
  | define binding =>
    have hscopes : (table.step (.define binding)).scopes =
        table.scopes.modify table.current fun scope => scope.insert binding := rfl
    rw [hscopes, List.getElem?_modify, hscope]
    refine ⟨_, rfl, ?_⟩
    by_cases hid : table.current = id
    · exact .inr ⟨hid, .inl ⟨binding, rfl, if_pos hid⟩⟩
    · exact .inl (if_neg hid)
  | seek line => exact ⟨scope, hscope, .inl rfl⟩

/-- A scope that was not there before an operation is empty after it. -/
theorem bindings_of_step_new (table : SymbolTable) (operation : Operation) {id : Nat} {next : Scope}
    (hnext : (table.step operation).scopes[id]? = some next) (hnew : table.scopes.length ≤ id) :
    next.bindings = [] := by
  have habsent {f : Scope → Scope} {inner : Nat}
      (hmodified : (table.scopes.modify inner f)[id]? = some next) : next.bindings = [] := by
    rw [List.getElem?_eq_none (by simpa using hnew)] at hmodified
    cases hmodified
  cases operation with
  | push name line =>
    have hscopes : (table.step (.push name line)).scopes =
        table.scopes ++ [⟨name, line, none, some table.current, table.openCount, []⟩] := rfl
    rw [hscopes, List.getElem?_append_right hnew] at hnext
    rw [List.mem_singleton.mp (List.mem_of_getElem? hnext)]
  | pop line =>
    rcases table.step_pop line with ⟨_, heq⟩ | ⟨inner, _, _, _, _, hscopes, _⟩
    · rw [heq, List.getElem?_eq_none hnew] at hnext
      cases hnext
    · exact habsent (hscopes ▸ hnext)
  | define binding => exact habsent hnext
  | seek line =>
    rw [show (table.step (.seek line)).scopes = table.scopes from rfl,
      List.getElem?_eq_none hnew] at hnext
    cases hnext

theorem extends_step (table : SymbolTable) (operation : Operation) :
    table.Extends (table.step operation) := by
  intro id scope hscope
  obtain ⟨next, hnext, rfl | ⟨_, ⟨binding, _, rfl⟩ | ⟨line, _, rfl⟩⟩⟩ :=
    table.step_scope operation hscope
  · exact ⟨next, hnext, Scope.Grows.refl next⟩
  · exact ⟨_, hnext, scope.grows_insert binding⟩
  · exact ⟨_, hnext, rfl, rfl, rfl, rfl, fun _ => List.Sublist.refl _⟩

/-- Whatever is done to a table, whether or not its parts fit together, keeps all that it holds. -/
theorem extends_run (table : SymbolTable) (operations : List Operation) :
    table.Extends (table.run operations) := by
  induction operations generalizing table with
  | nil => exact Extends.refl table
  | cons operation operations ih => exact (table.extends_step operation).trans (ih _)

/-- A closed scope is none of the open ones, so no operation comes to it. -/
theorem closed_step {table : SymbolTable} (h : Coherent table.scopes table.live)
    (operation : Operation) {id : Nat} {scope : Scope} (hscope : table.scopes[id]? = some scope)
    (hclosed : scope.closedAt ≠ none) : (table.step operation).scopes[id]? = some scope := by
  obtain ⟨next, hnext, rfl | ⟨rfl, _⟩⟩ := table.step_scope operation hscope
  · exact hnext
  · have hlive := List.mem_of_mem_head? table.head?_live
    exact absurd ((h.open_iff _ scope hscope).mpr hlive) hclosed

theorem closed_run {table : SymbolTable} (h : Coherent table.scopes table.live)
    (operations : List Operation) {id : Nat} {scope : Scope}
    (hscope : table.scopes[id]? = some scope) (hclosed : scope.closedAt ≠ none) :
    (table.run operations).scopes[id]? = some scope := by
  induction operations generalizing table with
  | nil => exact hscope
  | cons operation operations ih =>
    exact ih (coherent_step h operation) (closed_step h operation hscope hclosed)

/-- The operation rewrites nothing that was told of the line: it is on a later line, or does no more
than go to some line. -/
def Operation.Spares (line : Nat) (operation : Operation) : Prop :=
  line < operation.line ∨ ∃ position, operation = .seek position

theorem lookupAt?_step {table : SymbolTable} (h : Coherent table.scopes table.live) {line : Nat}
    {operation : Operation} (hline : operation.Spares line) (name : String) :
    (table.step operation).lookupAt? name line = table.lookupAt? name line := by
  rcases hline with hless | ⟨position, rfl⟩
  · have hagree := agreeAt_step h (Nat.le_of_lt hless) fun _ => hless
    exact hagree.lookupAt? h (coherent_step h operation) name
  · rfl

end SymbolTable

end QuantumScript
