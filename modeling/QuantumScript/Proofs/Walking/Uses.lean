import QuantumScript.Proofs.Walking.Operations
/-!
# Uses and reports

Every use of a name is kept with the table that it was looked up in. A name is reported as not defined
for the uses that this table knows no binding for, once for each and in their order, and for nothing
else.
-/

namespace QuantumScript

open SymbolTable

/-- What is reported for a use. -/
def Use.report? (use : Use) : Option Diagnostic :=
  match use.record with
  | some _ => none
  | none => some (.ofFinding (.undefinedSymbol use.site.text) use.site)

namespace Inference

/-- What a part of a walk adds: uses in tables made of the one before, and reports of those uses that
mean no binding. -/
structure Adds (state later : State) : Prop where
  added : ∃ uses diagnostics, later.uses = state.uses ++ uses ∧
    later.diagnostics = state.diagnostics ++ diagnostics ∧
    diagnostics.filter Diagnostic.isUndefined = uses.filterMap Use.report? ∧
    ∀ use ∈ uses, state.table.Reaches use.table
  reaches : state.table.Reaches later.table

namespace Adds

theorem of_same {state later : State} (huses : later.uses = state.uses)
    (hdiagnostics : later.diagnostics = state.diagnostics)
    (hreaches : state.table.Reaches later.table) : Adds state later :=
  ⟨⟨[], [], by simp [huses], by simp [hdiagnostics], rfl, nofun⟩, hreaches⟩

theorem trans {state later last : State} (h : Adds state later) (hlast : Adds later last) :
    Adds state last := by
  obtain ⟨uses, diagnostics, huses, hdiagnostics, hreports, hbefore⟩ := h.added
  obtain ⟨moreUses, more, hmoreUses, hmore, hmoreReports, hthen⟩ := hlast.added
  refine ⟨⟨uses ++ moreUses, diagnostics ++ more, ?_, ?_, ?_, ?_⟩, h.reaches.trans hlast.reaches⟩
  · rw [hmoreUses, huses, List.append_assoc]
  · rw [hmore, hdiagnostics, List.append_assoc]
  · rw [List.filter_append, List.filterMap_append, hreports, hmoreReports]
  · exact List.forall_mem_append.mpr ⟨hbefore, fun use hmem => h.reaches.trans (hthen use hmem)⟩

theorem use (state : State) (site : Site) : Adds state (state.use site) := by
  refine ⟨⟨[⟨site, state.table⟩], _, rfl, rfl, ?_, ?_⟩, Reaches.refl _⟩
  · cases hrecord : state.table.resolve? site.text with
    | none =>
      simp only [List.filterMap_cons, Use.report?, Use.record, hrecord]
      rfl
    | some record => simp [Use.report?, Use.record, hrecord]
  · exact List.forall_mem_singleton.mpr (Reaches.refl _)

theorem close (state : State) (line : Nat) : Adds state (state.close line) := by
  refine of_same ?_ ?_ (by rw [State.table_close]; exact Reaches.step _ _)
  all_goals
    unfold State.close
    split <;> rfl

end Adds

theorem Walk.adds {region : Region} {α : Type} {part : Inference α} (h : Walk region part)
    (state : State) : Adds state (part.run state).2 := by
  induction h generalizing state with
  | pure value => exact Adds.of_same rfl rfl (Reaches.refl _)
  | bind _ _ hfirst hnext => exact (hfirst state).trans (hnext _ _)
  | table => exact Adds.of_same rfl rfl (Reaches.refl _)
  | change h => exact Adds.of_same rfl rfl (h state.table).reaches
  | @report _ found hfound =>
    refine ⟨⟨[], found, (List.append_nil _).symm, rfl, ?_, nofun⟩, Reaches.refl _⟩
    simpa using hfound
  | track f => exact Adds.of_same rfl rfl (Reaches.refl _)
  | finish => exact Adds.of_same rfl rfl (Reaches.refl _)
  | resolve site =>
    rw [run_resolve]
    exact Adds.use state site
  | @within _ name opened closed body _ _ hbody =>
    rw [run_within]
    have hopen : Adds state { state with table := state.table.push name opened } :=
      Adds.of_same rfl rfl (Reaches.step state.table (.push name opened))
    exact (hopen.trans (hbody _)).trans (Adds.close _ _)
  | @isolated _ name line body _ _ hbody =>
    rw [run_isolated]
    have hopen : Adds state { state with table := state.table.push name line } :=
      Adds.of_same rfl rfl (Reaches.step state.table (.push name line))
    have hclosed := (hopen.trans (hbody _)).trans (Adds.close _ line)
    exact hclosed.trans (Adds.of_same rfl rfl (Reaches.step _ (.seek _)))

/-- In the walk of a script the names reported as not defined are those of the uses that mean no binding
in the table at the use, and every such table is made of the one before the walk. -/
theorem State.reports_ofScript (index : Text.LineIndex) (script : Ast.Script) (table : SymbolTable) :
    let state := State.ofScript index script table
    state.diagnostics.filter Diagnostic.isUndefined = state.uses.filterMap Use.report? ∧
      ∀ use ∈ state.uses, table.Reaches use.table := by
  intro state
  obtain ⟨uses, diagnostics, huses, hdiagnostics, hreports, hreaches⟩ :=
    ((walk_script_anywhere index script).adds (.start table)).added
  have hstate : state = ((Inference.script index script).run (.start table)).2 := rfl
  rw [hstate, huses, hdiagnostics]
  exact ⟨hreports, hreaches⟩

end Inference

end QuantumScript
