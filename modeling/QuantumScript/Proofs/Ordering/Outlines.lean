import Mathlib.Data.Set.Insert
import QuantumScript.Proofs.Scoping.Growth
import QuantumScript.Proofs.Scoping.Runs
/-!
# Outlines of tables

Whether a name is bound at all does not depend on lines, types or the position of the walk. It only
depends on the outline of the table: the names that each open scope holds.
-/

namespace QuantumScript

/-- The names that the scope has versions of. -/
def Scope.names (scope : Scope) : Set String := {name | ∃ version, version ∈ scope.versions name}

private theorem Scope.names_insert (scope : Scope) (binding : Binding) :
    (scope.insert binding).names = {binding.name} ∪ scope.names := by
  ext name
  rw [Set.mem_union, Set.mem_singleton_iff]
  constructor
  · rintro ⟨version, hversion⟩
    rcases scope.insert_cases binding with ⟨_, heq⟩ | ⟨_, heq⟩ <;> rw [heq] at hversion
    · exact .inr ⟨version, hversion⟩
    · obtain ⟨hmem, hname⟩ := mem_versions.mp hversion
      rcases mem_insertSorted.mp hmem with rfl | hmem
      · exact .inl hname.symm
      · exact .inr ⟨version, mem_versions.mpr ⟨hmem, hname⟩⟩
  · rintro (rfl | ⟨version, hversion⟩)
    · exact (scope.exists_version_insert binding).imp fun _ => And.left
    · exact ⟨version, ((scope.grows_insert binding).versions name).mem hversion⟩

/-- The names that the open scopes hold, those of the innermost first. -/
abbrev Outline := List (Set String)

namespace Outline

/-- The name is held by one of the scopes. -/
def Holds (outline : Outline) (name : String) : Prop := ∃ names ∈ outline, name ∈ names

/-- The outline with a name in the innermost scope. -/
def bind (name : String) : Outline → Outline
  | [] => []
  | names :: outer => ({name} ∪ names) :: outer

/-- The outline without the innermost scope. The global scope stays. -/
def leave : Outline → Outline
  | _ :: second :: outer => second :: outer
  | outline => outline

end Outline

namespace SymbolTable

/-- The names that a scope holds. -/
def namesAt (scopes : List Scope) (id : Nat) : Set String := scopes[id]?.elim ∅ Scope.names

def outline (table : SymbolTable) : Outline := table.live.map (namesAt table.scopes)

variable {table : SymbolTable}

/-- Only the scopes that are open matter. -/
theorem outline_congr {later : SymbolTable} (hlive : later.live = table.live)
    (hscopes : ∀ id ∈ table.live, later.scopes[id]? = table.scopes[id]?) : later.outline = table.outline := by
  rw [outline, hlive]
  refine List.map_congr_left fun id hmem => ?_
  rw [namesAt, hscopes id hmem, ← namesAt]

/-- In an outline of one scope only the global scope is open. -/
theorem outline_global (hinner : table.inner = []) : table.outline = [namesAt table.scopes 0] := by
  rw [outline, live, hinner]
  rfl

section Coherent

variable (h : Coherent table.scopes table.live)
include h

theorem outline_push (name : String) (line : Nat) : (table.push name line).outline = ∅ :: table.outline := by
  have hscopes : (table.push name line).scopes =
      table.scopes ++ [⟨name, line, none, some table.current, table.openCount, []⟩] := rfl
  rw [outline, live_push, List.map_cons, hscopes]
  congr 1
  · rw [namesAt, List.getElem?_concat_length]
    refine Set.eq_empty_iff_forall_notMem.mpr fun _ => ?_
    rintro ⟨version, hversion⟩
    cases hversion
  · refine List.map_congr_left fun id hmem => ?_
    rw [namesAt, List.getElem?_append_left (h.lt_of_mem hmem), ← namesAt]

theorem outline_define (binding : Binding) :
    (table.define binding).outline = table.outline.bind binding.name := by
  obtain ⟨outer, hlive⟩ : ∃ outer, table.live = table.current :: outer := by
    have hcurrent := table.head?_live
    cases hlive : table.live with
    | nil =>
      rw [hlive] at hcurrent
      cases hcurrent
    | cons id outer =>
      rw [hlive] at hcurrent
      exact ⟨outer, congrArg (· :: outer) (Option.some.inj hcurrent)⟩
  have hscopes : (table.define binding).scopes =
      table.scopes.modify table.current fun scope => scope.insert binding := rfl
  obtain ⟨scope, hscope⟩ : ∃ scope, table.scopes[table.current]? = some scope :=
    ⟨_, List.getElem?_eq_getElem (h.lt_of_mem (hlive ▸ List.mem_cons_self))⟩
  rw [outline, live_define, outline, hlive, List.map_cons, List.map_cons, Outline.bind, hscopes]
  congr 1
  · rw [namesAt, List.getElem?_modify_eq, namesAt, hscope]
    exact scope.names_insert binding
  · refine List.map_congr_left fun id hmem => ?_
    have hless : table.current > id := (List.pairwise_cons.mp (hlive ▸ h.decreasing)).1 id hmem
    rw [namesAt, List.getElem?_modify_ne _ _ (Nat.ne_of_gt hless), ← namesAt]

theorem outline_pop (line : Nat) : (table.step (.pop line)).outline = table.outline.leave := by
  rcases table.step_pop line with ⟨hlive, heq⟩ | ⟨id, outer, hlive, hnonempty, hnext, hscopes, _⟩
  · rw [heq, outline, hlive]
    rfl
  obtain ⟨second, rest, rfl⟩ := List.exists_cons_of_ne_nil hnonempty
  have hless := (List.pairwise_cons.mp (hlive ▸ h.decreasing)).1
  rw [outline, hnext, outline, hlive]
  change _ = (second :: rest).map (namesAt table.scopes)
  refine List.map_congr_left fun other hmem => ?_
  rw [namesAt, hscopes, List.getElem?_modify_ne _ _ (Nat.ne_of_gt (hless other hmem)), ← namesAt]

end Coherent

private theorem findIn_eq_none {scopes : List Scope} {find : Scope → Option Binding} {ids : List Nat} :
    findIn scopes find ids = none ↔ ∀ id ∈ ids, scopes[id]?.bind find = none := by
  induction ids with
  | nil => exact ⟨fun _ => nofun, fun _ => rfl⟩
  | cons id outer ih =>
    rw [findIn, List.forall_mem_cons, ← ih]
    split
    · rename_i hfirst
      simp [hfirst]
    · rename_i hfirst
      simp [hfirst]

/-- A name means no binding if the outline does not hold it. -/
theorem resolve?_eq_none {name : String} : table.resolve? name = none ↔ ¬table.outline.Holds name := by
  have hdeclared : table.lookupDeclared? name = none ↔ ¬table.outline.Holds name := by
    rw [lookupDeclared?, findIn_eq_none, Outline.Holds, outline]
    simp only [List.mem_map, exists_exists_and_eq_and, not_exists, not_and]
    refine forall_congr' fun id => imp_congr_right fun _ => ?_
    cases hscope : table.scopes[id]? with
    | none => simp [namesAt, hscope]
    | some scope =>
      simp only [Option.bind_some, List.head?_eq_none_iff, namesAt, hscope, Option.elim_some, Scope.names,
        Set.mem_ofPred_eq, not_exists]
      exact List.eq_nil_iff_forall_not_mem
  rw [resolve?, Option.or_eq_none_iff, ← hdeclared]
  refine and_iff_right_of_imp fun hnone => ?_
  rw [lookup?, findIn_eq_none]
  intro id hmem
  have hversions := (findIn_eq_none.mp hnone) id hmem
  cases hscope : table.scopes[id]? with
  | none => rfl
  | some scope =>
    rw [hscope, Option.bind_some, List.head?_eq_none_iff] at hversions
    rw [Option.bind_some, Scope.latestAt, hversions]
    rfl

end SymbolTable

end QuantumScript
