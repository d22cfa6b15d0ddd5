import QuantumScript.Proofs.Walking.Expressions
/-!
# Frames of expressions

An expression binds nothing outside itself. The scopes that its lambdas and comprehensions open are
closed on the same line, the open scopes and the position are as before when its walk ends, and what
there was in the table and among the diagnostics stays as it is.
-/

namespace QuantumScript

/-- The scopes opened since the base were opened on the line, and closed on it as far as they are not
open any more. -/
def SymbolTable.Sealed (line : Nat) (base : SymbolTable) (opened : List Nat) (table : SymbolTable) : Prop :=
  ∀ id scope, base.scopes.length ≤ id → table.scopes[id]? = some scope →
    scope.openedAt = line ∧ (id ∉ opened → scope.closedAt = some line)

namespace SymbolTable.Sealed

variable {line : Nat} {base table : SymbolTable} {opened : List Nat}

theorem refl (line : Nat) (base : SymbolTable) : Sealed line base [] base := by
  intro id scope hle hscope
  rw [List.getElem?_eq_none hle] at hscope
  cases hscope

theorem define (h : Sealed line base opened table) (binding : Binding) :
    Sealed line base opened (table.define binding) := by
  have hscopes : (table.define binding).scopes =
      table.scopes.modify table.current fun scope => scope.insert binding := rfl
  intro id scope hle hscope
  rw [hscopes, List.getElem?_modify] at hscope
  obtain ⟨own, hown, rfl⟩ := Option.map_eq_some_iff.mp hscope
  have hsealed := h id own hle hown
  split
  · rwa [Scope.openedAt_insert, Scope.closedAt_insert]
  · exact hsealed

theorem push (h : Sealed line base opened table) (name : String) :
    Sealed line base (table.scopes.length :: opened) (table.push name line) := by
  have hscopes : (table.push name line).scopes =
      table.scopes ++ [⟨name, line, none, some table.current, table.openCount, []⟩] := rfl
  intro id scope hle hscope
  rw [hscopes] at hscope
  rcases Nat.lt_or_ge id table.scopes.length with hless | hge
  · rw [List.getElem?_append_left hless] at hscope
    obtain ⟨hopened, hclosed⟩ := h id scope hle hscope
    exact ⟨hopened, fun hmem => hclosed fun hin => hmem (List.mem_cons_of_mem _ hin)⟩
  · rw [List.getElem?_append_right hge] at hscope
    have hlast : id - table.scopes.length = 0 := by
      have hless := (List.getElem?_eq_some_iff.mp hscope).1
      simpa using hless
    rw [hlast, List.getElem?_cons_zero] at hscope
    obtain rfl : id = table.scopes.length := by omega
    cases hscope
    exact ⟨rfl, fun hmem => absurd List.mem_cons_self hmem⟩

theorem close {id : Nat} (h : Sealed line base (id :: opened) table) :
    Sealed line base opened
      { table with scopes := table.scopes.modify id fun scope => { scope with closedAt := some line } } := by
  intro other scope hle hscope
  rw [List.getElem?_modify] at hscope
  obtain ⟨own, hown, rfl⟩ := Option.map_eq_some_iff.mp hscope
  obtain ⟨hopened, hclosed⟩ := h other own hle hown
  split
  · exact ⟨hopened, fun _ => rfl⟩
  · rename_i hne
    refine ⟨hopened, fun hmem => hclosed fun hin => ?_⟩
    exact (List.mem_cons.mp hin).elim (fun heq => hne heq.symm) hmem

end SymbolTable.Sealed

namespace Inference

open SymbolTable
open Text (LineIndex)

/-- What the part of a walk leaves behind: closed scopes and diagnostics. -/
structure Frames (line : Nat) (base : SymbolTable) (opened : List Nat) (state later : State) : Prop where
  passed : Sealed line base opened later.table
  diagnostics : ∃ found, later.diagnostics = state.diagnostics ++ found
  faults : later.faults = state.faults

theorem Frames.of_same {line : Nat} {base : SymbolTable} {opened : List Nat} {state later : State}
    (hpassed : Sealed line base opened later.table) (hdiagnostics : later.diagnostics = state.diagnostics)
    (hfaults : later.faults = state.faults) : Frames line base opened state later :=
  ⟨hpassed, ⟨[], by rw [hdiagnostics, List.append_nil]⟩, hfaults⟩

private theorem State.close_of_inner {state : State} {id : Nat} {outer : List Nat}
    (h : state.table.inner = id :: outer) (line : Nat) :
    state.close line = { state with
      table := ({ state.table with
        scopes := state.table.scopes.modify id fun scope => { scope with closedAt := some line }
        inner := outer } : SymbolTable).reach line } := by
  simp only [State.close, SymbolTable.pop, h]

private theorem Local.frames {line : Nat} {owned marks : Bool} {α : Type} {part : Inference α}
    (h : Local line owned marks part) {base : SymbolTable} {opened : List Nat} {state : State}
    (hinside : Inside line base opened state.table) (howned : owned = true → opened ≠ [])
    (hsealed : Sealed line base opened state.table) :
    Frames line base opened state (part.run state).2 := by
  induction h generalizing opened state with
  | pure value => exact .of_same hsealed rfl rfl
  | @bind _ _ _ _ _ first _ hlocal _ hfirst hnext =>
    have hearly := hfirst hinside howned hsealed
    obtain ⟨found, hfound⟩ := hearly.diagnostics
    have hlater := hnext (first.run state).1 (hlocal.stays hinside howned).table howned hearly.passed
    obtain ⟨more, hmore⟩ := hlater.diagnostics
    refine ⟨hlater.passed, ⟨found ++ more, ?_⟩, hlater.faults.trans hearly.faults⟩
    rw [← List.append_assoc, ← hfound]
    exact hmore
  | table => exact .of_same hsealed rfl rfl
  | report _ => exact ⟨hsealed, ⟨_, rfl⟩, rfl⟩
  | track _ => exact .of_same hsealed rfl rfl
  | resolve site => exact ⟨hsealed, ⟨_, rfl⟩, rfl⟩
  | define name type => exact .of_same (hsealed.define _) rfl rfl
  | @isolated owned name body hbody ih =>
    have hpush := hinside.push name
    let pushed : State := { state with table := state.table.push name line }
    have hopen : true = true → state.table.scopes.length :: opened ≠ [] := fun _ => List.cons_ne_nil _ _
    have hframes : Frames line base (state.table.scopes.length :: opened) pushed (body.run pushed).2 :=
      ih hpush hopen (hsealed.push name)
    have hstays : Stays line base (state.table.scopes.length :: opened) _ pushed (body.run pushed).2 :=
      hbody.stays hpush hopen
    rw [run_isolated, State.close_of_inner hstays.table.inner]
    exact ⟨hframes.passed.close, hframes.diagnostics, hframes.faults⟩

/-- An expression binds nothing outside itself. Whatever it is, on whatever line and from whatever state
it is walked, tracked or not, the same scopes are open afterwards, the position is as before, and every
scope that there was is as it was. All that is added to the table are scopes that were opened and closed
on the line of the expression, and all that is added to the diagnostics stands behind those that there
were. No scope fails to be closed. -/
theorem expression_frame (index : LineIndex) (line : Nat) (tracked : Bool) (e : Ast.Expr) (state : State) :
    let later := ((expr index line tracked e).run state).2
    later.table.live = state.table.live ∧ later.table.position = state.table.position ∧
      (∃ passed, later.table.scopes = state.table.scopes ++ passed ∧
        ∀ scope ∈ passed, scope.openedAt = line ∧ scope.closedAt = some line) ∧
      (∃ found, later.diagnostics = state.diagnostics ++ found) ∧ later.faults = state.faults := by
  intro later
  have hlocal : Local line false (tracked && e.startsAtName) (expr index line tracked e) :=
    local_expr index tracked e
  have hinside : Inside line state.table [] later.table := (hlocal.stays_self state).table
  have hframes : Frames line state.table [] state later :=
    hlocal.frames (Inside.refl line state.table) nofun (Sealed.refl line state.table)
  refine ⟨hinside.live, hinside.position, ⟨later.table.scopes.drop state.table.scopes.length, ?_, ?_⟩,
    hframes.diagnostics, hframes.faults⟩
  · have hkept : later.table.scopes.take state.table.scopes.length = state.table.scopes := by
      refine List.ext_getElem? fun id => ?_
      rcases Nat.lt_or_ge id state.table.scopes.length with hless | hge
      · rw [List.getElem?_take_of_lt hless, hinside.scopes hless]
      · rw [List.getElem?_eq_none hge, List.getElem?_eq_none]
        exact Nat.le_trans (List.length_take_le _ _) hge
    calc later.table.scopes
      _ = later.table.scopes.take state.table.scopes.length ++
          later.table.scopes.drop state.table.scopes.length := (List.take_append_drop _ _).symm
      _ = _ := by rw [hkept]
  · intro scope hmem
    obtain ⟨id, hid⟩ := List.mem_iff_getElem?.mp hmem
    rw [List.getElem?_drop] at hid
    obtain ⟨hopened, hclosed⟩ := hframes.passed _ scope (Nat.le_add_right _ _) hid
    exact ⟨hopened, hclosed List.not_mem_nil⟩

end Inference

end QuantumScript
