import QuantumScript.Proofs.Scoping.Surroundings
import QuantumScript.Proofs.Walking.Local
/-!
# Surroundings of a walk

While a block is walked, the scopes around the one that it stands in stay open and stay as they are, and
every lookup is made from a position where some line of the block is the next to be read.
-/

namespace QuantumScript

namespace Inference

open SymbolTable

/-- What a walk makes of a state that comes from a base. -/
structure Around (base : SymbolTable) (region : Region) (opened : List Nat) (state later : State) :
    Prop where
  table : Surrounds base opened later.table
  sees : region.Sees later.table.position
  uses : ∃ added, later.uses = state.uses ++ added ∧
    ∀ use ∈ added, region.Sees use.table.position ∧ ∃ more, Surrounds base (more ++ opened) use.table

namespace Around

variable {base : SymbolTable} {region : Region} {opened : List Nat} {state mid later : State}

private theorem of_uses (htable : Surrounds base opened later.table) (hsees : region.Sees later.table.position)
    (huses : later.uses = state.uses) : Around base region opened state later := by
  refine ⟨htable, hsees, [], ?_, nofun⟩
  rw [huses, List.append_nil]

theorem trans (h : Around base region opened state mid) (hmore : Around base region opened mid later) :
    Around base region opened state later := by
  obtain ⟨added, hadded, haround⟩ := h.uses
  obtain ⟨others, hothers, hthen⟩ := hmore.uses
  refine ⟨hmore.table, hmore.sees, added ++ others, ?_, List.forall_mem_append.mpr ⟨haround, hthen⟩⟩
  rw [hothers, hadded, List.append_assoc]

end Around

private theorem Region.Binds.surrounds {region : Region} {base table later : SymbolTable} {opened : List Nat}
    (h : region.Binds table later) (htable : Surrounds base opened table)
    (hsees : region.Sees table.position) :
    Surrounds base opened later ∧ region.Sees later.position := by
  obtain ⟨operations, hallowed, rfl⟩ := h
  induction operations generalizing table with
  | nil => exact ⟨htable, hsees⟩
  | cons operation rest ih =>
    obtain ⟨hfirst, hrest⟩ := List.forall_mem_cons.mp hallowed
    rcases hfirst with ⟨binding, rfl, hline⟩ | ⟨line, rfl, hline⟩
    · exact ih (htable.define binding) (hsees.mono (Nat.le_max_left _ _)) hrest
    · exact ih (htable.seek line) hline hrest

theorem Region.Holds.sees {region : Region} {opened closed position : Nat}
    (h : region.Holds opened closed) (hsees : (region.narrow opened closed).Sees position) :
    region.Sees position := by
  cases region with
  | anywhere => trivial
  | between first last => exact Nat.le_trans h.1 hsees

private theorem Region.Holds.narrow_sees {region : Region} {opened closed position : Nat}
    (h : region.Holds opened closed) (hle : opened ≤ position) :
    (region.narrow opened closed).Sees position := h.narrow_has.sees.mono hle

/-- A walk that starts in a base stays around it. -/
theorem Walk.around {region : Region} {α : Type} {part : Inference α} (h : Walk region part)
    {base : SymbolTable} {opened : List Nat} {state : State}
    (htable : Surrounds base opened state.table) (hsees : region.Sees state.table.position) :
    Around base region opened state (part.run state).2 := by
  -- A scope that is opened and closed: the body is walked with one more scope open.
  have hscope {region : Region} (name : String) {first last : Nat} {body : Inference Unit}
      {opened : List Nat} {state : State} (hholds : region.Holds first last)
      (hbody : ∀ {opened : List Nat} {state : State}, Surrounds base opened state.table →
        (region.narrow first last).Sees state.table.position →
          Around base (region.narrow first last) opened state (body.run state).2)
      (htable : Surrounds base opened state.table) :
      Around base region opened state ((Inference.within name first last body).run state).2 := by
    have hpushed : first ≤ (state.table.push name first).position := Nat.le_max_right _ _
    have haround := @hbody (state.table.scopes.length :: opened)
      { state with table := state.table.push name first } (htable.push name first)
      (hholds.narrow_sees hpushed)
    obtain ⟨added, hadded, huses⟩ := haround.uses
    rw [run_within]
    have hpopped := haround.table.pop last
    refine ⟨by rwa [State.table_close], ?_, added, by rwa [State.uses_close], ?_⟩
    · have hinner : (body.run { state with table := state.table.push name first }).2.table.inner =
          state.table.scopes.length :: (opened ++ base.inner) := haround.table.inner
      rw [State.table_close]
      simp only [SymbolTable.step, SymbolTable.pop, hinner]
      refine (hholds.sees haround.sees).mono (Nat.le_max_left _ _)
    · intro use hmem
      obtain ⟨hsees, more, hmore⟩ := huses use hmem
      refine ⟨hholds.sees hsees, more ++ [state.table.scopes.length], ?_⟩
      rwa [List.append_assoc]
  induction h generalizing opened state with
  | pure value => exact .of_uses htable hsees rfl
  | bind _ _ hfirst hnext =>
    have hearly := hfirst htable hsees
    exact hearly.trans (hnext _ hearly.table hearly.sees)
  | table => exact .of_uses htable hsees rfl
  | change h =>
    obtain ⟨hlater, hposition⟩ := (h state.table).surrounds htable hsees
    exact .of_uses hlater hposition rfl
  | report _ => exact .of_uses htable hsees rfl
  | track f => exact .of_uses htable hsees rfl
  | finish => exact .of_uses htable hsees rfl
  | resolve site =>
    have huses : ((Inference.resolve site).run state).2.uses = state.uses ++ [⟨site, state.table⟩] := rfl
    exact ⟨htable, hsees, _, huses, List.forall_mem_singleton.mpr ⟨hsees, [], htable⟩⟩
  | within hholds _ hbody => exact hscope _ hholds hbody htable
  | @isolated _ name line body hline _ hbody =>
    have haround := hscope name hline.holds hbody htable
    exact ⟨haround.table.seek _, hsees, haround.uses⟩

end Inference

end QuantumScript
