import QuantumScript.Hoisting
import QuantumScript.Proofs.Scoping.Growth
import QuantumScript.Proofs.Walking.Statements
/-!
# Passes as operations

Both passes over a script come to the table by its operations only. So what holds after every operation
holds after a pass, on whatever script and from whatever table.
-/

namespace QuantumScript

namespace SymbolTable

/-- The later table is made of the table by operations. -/
def Reaches (table later : SymbolTable) : Prop := ∃ operations, later = table.run operations

namespace Reaches

theorem refl (table : SymbolTable) : table.Reaches table := ⟨[], rfl⟩

theorem trans {table later last : SymbolTable} (h : table.Reaches later)
    (hlast : later.Reaches last) : table.Reaches last := by
  obtain ⟨operations, rfl⟩ := h
  obtain ⟨more, rfl⟩ := hlast
  exact ⟨operations ++ more, (run_append table operations more).symm⟩

theorem step (table : SymbolTable) (operation : Operation) : table.Reaches (table.step operation) :=
  ⟨[operation], rfl⟩

/-- The parts of a table fit together after a pass if they did before it. -/
theorem coherent {table later : SymbolTable} (h : table.Reaches later)
    (hcoherent : Coherent table.scopes table.live) : Coherent later.scopes later.live := by
  obtain ⟨operations, rfl⟩ := h
  exact coherent_run hcoherent operations

theorem toExtends {table later : SymbolTable} (h : table.Reaches later) : table.Extends later := by
  obtain ⟨operations, rfl⟩ := h
  exact table.extends_run operations

end Reaches

end SymbolTable

open SymbolTable

namespace Inference.Region.Binds

variable {region : Region} {line : Nat}

theorem reaches {table later : SymbolTable} (h : region.Binds table later) : table.Reaches later := by
  obtain ⟨operations, _, hrun⟩ := h
  exact ⟨operations, hrun⟩

theorem defineNames (h : region.Has line) (table : SymbolTable) (type : SymbolType)
    (targets : List Ast.Expr) : region.Binds table (table.defineNames type line targets) := by
  induction targets generalizing table with
  | nil => exact refl table
  | cons target rest ih =>
    rw [SymbolTable.defineNames]
    split
    · exact (define table h).trans (ih _)
    · exact ih table

theorem hoist {index : Text.LineIndex} {statement : Ast.Statement}
    (h : region.Has (index.firstLine statement.extent)) (table : SymbolTable) :
    region.Binds table (table.hoist index statement) := by
  unfold SymbolTable.hoist
  dsimp only
  split
  · split
    · exact define table h
    · exact refl table
  · split
    · exact define table h
    · exact refl table
  · split
    · exact defineNames h table _ _
    · exact refl table
  · exact defineImports h table _

theorem hoistAll {index : Text.LineIndex} {statements : List Ast.Statement}
    (h : ∀ statement ∈ statements, region.Has (index.firstLine statement.extent))
    (table : SymbolTable) : region.Binds table (statements.foldl (SymbolTable.hoist index) table) := by
  induction statements generalizing table with
  | nil => exact refl table
  | cons statement rest ih =>
    obtain ⟨hfirst, hrest⟩ := List.forall_mem_cons.mp h
    exact (hoist hfirst table).trans (ih hrest _)

end Inference.Region.Binds

/-- The first pass binds names and does nothing else. -/
theorem Hoisting.binds_run (index : Text.LineIndex) (script : Ast.Script) (table : SymbolTable) :
    Inference.Region.anywhere.Binds table (Hoisting.run index script table) :=
  Inference.Region.Binds.hoistAll (fun _ _ => Inference.Region.anywhere_has _) table

namespace Inference

/-- What a part of a walk does to the table comes to operations. -/
theorem Walk.reaches {region : Region} {α : Type} {part : Inference α} (h : Walk region part)
    (state : State) : state.table.Reaches (part.run state).2.table := by
  induction h generalizing state with
  | pure value => exact Reaches.refl _
  | bind _ _ hfirst hnext => exact (hfirst state).trans (hnext _ _)
  | table => exact Reaches.refl _
  | change h => exact (h state.table).reaches
  | report _ => exact Reaches.refl _
  | track f => exact Reaches.refl _
  | finish => exact Reaches.refl _
  | resolve site =>
    rw [run_resolve]
    exact Reaches.refl _
  | @within _ name opened closed body _ _ hbody =>
    rw [run_within, State.table_close]
    exact ((Reaches.step state.table (.push name opened)).trans (hbody _)).trans (Reaches.step _ _)
  | @isolated _ name line body _ _ hbody =>
    rw [run_isolated]
    dsimp only
    rw [State.table_close]
    have hinner := (Reaches.step state.table (.push name line)).trans
      (hbody { state with table := state.table.push name line })
    exact (hinner.trans (Reaches.step _ (.pop line))).trans (Reaches.step _ (.seek _))

theorem run_statements_append (index : Text.LineIndex) (owner : Option ClassType) (items others : List Ast.Statement)
    (state : State) : ((statements index owner (items ++ others)).run state).2 =
      ((statements index owner others).run ((statements index owner items).run state).2).2 := by
  induction items generalizing state with
  | nil =>
    rw [statements]
    rfl
  | cons first rest ih =>
    rw [List.cons_append, statements, statements, run_bind, run_bind]
    exact ih _

/-- After the statements the walk of a script only moves to its end. -/
theorem State.ofScript_eq (index : Text.LineIndex) (script : Ast.Script) (table : SymbolTable) :
    let walked := ((statements index none script.statements).run (.start table)).2
    State.ofScript index script table =
      { walked with table := walked.table.reach (index.lastLine script.extent) } := rfl

theorem State.reaches_ofScript (index : Text.LineIndex) (script : Ast.Script) (table : SymbolTable) :
    table.Reaches (State.ofScript index script table).table :=
  (walk_script_anywhere index script).reaches (.start table)

end Inference

namespace SymbolTable

/-- A table is append-only. After any operations, one more keeps every scope where it is with all its
versions in their order, and once it is closed with all that it has. Only the current scope may get a
version, and only one. Closing the global scope fails and changes nothing. What is done further down, and
going to any line, leaves what the table tells of a line as it is. The two passes keep all that any
table holds. -/
theorem run_append_only (builtins : Bool) (operations : List Operation) (operation : Operation) :
    let table := (initial builtins).run operations
    let next := table.step operation
    (∀ (id : Nat) (scope : Scope), table.scopes[id]? = some scope →
      ∃ later, next.scopes[id]? = some later ∧ scope.Grows later ∧
        (∀ line, scope.closedAt = some line → later.closedAt = some line) ∧
        (id ≠ table.current → later.bindings = scope.bindings) ∧
        later.bindings.length ≤ scope.bindings.length + 1) ∧
    (∀ (id : Nat) (later : Scope), next.scopes[id]? = some later → table.scopes.length ≤ id →
      later.bindings = []) ∧
    (∀ (more : List Operation) (id : Nat) (scope : Scope), table.scopes[id]? = some scope →
      scope.closedAt ≠ none → (table.run more).scopes[id]? = some scope) ∧
    (∀ line error, table.pop line = .error error → table.live = [0] ∧ table.step (.pop line) = table) ∧
    (∀ name line, operation.Spares line → next.lookupAt? name line = table.lookupAt? name line) ∧
    ∀ (index : Text.LineIndex) (script : Ast.Script) (any : SymbolTable),
      any.Extends (Hoisting.run index script any) ∧
        any.Extends (Inference.State.ofScript index script any).table := by
  intro table next
  have hcoherent : Coherent table.scopes table.live :=
    coherent_run (coherent_initial builtins) operations
  refine ⟨?_, fun id later => table.bindings_of_step_new operation,
    fun more id scope => closed_run hcoherent more, ?_,
    fun name line hline => lookupAt?_step hcoherent hline name, ?_⟩
  · intro id scope hscope
    obtain ⟨later, hlater, hchange⟩ := table.step_scope operation hscope
    obtain ⟨same, hsame, hgrows⟩ := table.extends_step operation id scope hscope
    obtain rfl : later = same := Option.some.inj (hlater.symm.trans hsame)
    refine ⟨later, hlater, hgrows, ?_, ?_, ?_⟩
    · intro line hline
      have hkept := closed_step hcoherent operation hscope (by simp [hline])
      rw [Option.some.inj (hlater.symm.trans hkept), hline]
    · intro hid
      rcases hchange with rfl | ⟨hcurrent, _⟩
      · rfl
      · exact absurd hcurrent.symm hid
    · obtain rfl | ⟨_, ⟨binding, _, rfl⟩ | ⟨line, _, rfl⟩⟩ := hchange
      · exact Nat.le_succ _
      · exact scope.length_insert_le binding
      · exact Nat.le_succ _
  · intro line error herror
    rcases table.step_pop line with hglobal | ⟨id, outer, hlive, hnonempty, _⟩
    · exact hglobal
    · unfold pop at herror
      split at herror
      · rename_i hinner
        simp [live, hinner] at hlive
        exact absurd hlive.2 hnonempty
      · cases herror
  · intro index script any
    exact ⟨(Hoisting.binds_run index script any).reaches.toExtends,
      (Inference.State.reaches_ofScript index script any).toExtends⟩

end SymbolTable

end QuantumScript
