import QuantumScript.Proofs.Binding.Tracking
import QuantumScript.Proofs.Ordering.Outlines
/-!
# Twin walks

Two walks are twins if from tables of one outline they come to tables of one outline, and on the way
find the same names missing. The lines that they bind names at, the types that they find and the sites
that they report may differ.
-/

namespace QuantumScript

namespace Inference

open SymbolTable
open Text (LineIndex)

/-- The names that have been found missing. -/
def State.namings (state : State) : List Finding := state.diagnostics.filterMap Diagnostic.naming?

/-- The open scopes of two states hold the same names. Between statements no targets are left over in
either of them. -/
structure State.Like (idle : Bool) (state other : State) : Prop where
  left : Coherent state.table.scopes state.table.live
  right : Coherent other.table.scopes other.table.live
  outline : state.table.outline = other.table.outline
  idle : idle = true → state.tracker.Idle ∧ other.tracker.Idle

/-- From like states the two parts of walks lead to like states, and find the same names missing. -/
def Twins {α β : Type} (idle : Bool) (part : Inference α) (twin : Inference β) : Prop :=
  ∀ state other : State, state.Like idle other →
    (part.run state).2.Like idle (twin.run other).2 ∧
      ∃ found, (part.run state).2.namings = state.namings ++ found ∧
        (twin.run other).2.namings = other.namings ++ found

/-- The part of a walk finds no name missing, and otherwise only looks at the table. -/
def Quiet {α : Type} (part : Inference α) : Prop :=
  ∀ state : State, (part.run state).2.table = state.table ∧ (part.run state).2.tracker = state.tracker ∧
    (part.run state).2.namings = state.namings

namespace Quiet

variable {α β : Type}

theorem pure (value : α) : Quiet (pure value) := fun _ => ⟨rfl, rfl, rfl⟩

theorem table : Quiet table := fun _ => ⟨rfl, rfl, rfl⟩

theorem bind {first : Inference α} {next : α → Inference β} (hfirst : Quiet first)
    (hnext : ∀ value, Quiet (next value)) : Quiet (first >>= next) := by
  intro state
  obtain ⟨htable, htracker, hnamings⟩ := hfirst state
  obtain ⟨hlater, hlast, hmore⟩ := hnext (first.run state).1 (first.run state).2
  exact ⟨hlater.trans htable, hlast.trans htracker, hmore.trans hnamings⟩

theorem report {found : List Diagnostic} (h : ∀ diagnostic ∈ found, diagnostic.naming? = none) :
    Quiet (report found) := by
  intro state
  have hnamings : ((Inference.report found).run state).2.namings =
      (state.diagnostics ++ found).filterMap Diagnostic.naming? := rfl
  rw [hnamings, List.filterMap_append, List.filterMap_eq_nil_iff.mpr h, List.append_nil]
  exact ⟨rfl, rfl, rfl⟩

theorem access (receiver : Option SymbolType) (site : Site) (called : Bool) :
    Quiet (access receiver site called) := by
  unfold Inference.access
  split
  · exact pure _
  refine bind table fun _ => ?_
  split
  · split <;> exact pure _
  · split
    · exact bind (report (List.forall_mem_singleton.mpr rfl)) fun _ => pure _
    · exact pure _
  · exact pure _

theorem call (callee : Callee) (arguments : List CallArgument) : Quiet (call callee arguments) := by
  refine bind table fun table => ?_
  split
  · exact bind (report (Signature.naming?_check _ _ _ _)) fun _ => pure _
  · split
    · exact bind (report (Signature.naming?_check _ _ _ _)) fun _ => pure _
    · exact pure _
  · exact pure _

end Quiet

namespace Twins

variable {α β γ δ : Type} {idle : Bool}

private theorem of_silent {part : Inference α} {twin : Inference β}
    (h : ∀ state other : State, state.Like idle other → (part.run state).2.Like idle (twin.run other).2)
    (hpart : ∀ state : State, (part.run state).2.namings = state.namings)
    (htwin : ∀ state : State, (twin.run state).2.namings = state.namings) : Twins idle part twin := by
  intro state other hlike
  refine ⟨h state other hlike, [], ?_, ?_⟩
  · rw [hpart, List.append_nil]
  · rw [htwin, List.append_nil]

theorem pure (value : α) (other : β) : Twins idle (pure value) (pure other) :=
  of_silent (fun _ _ hlike => hlike) (fun _ => rfl) fun _ => rfl

theorem bind {first : Inference α} {next : α → Inference γ} {twin : Inference β} {rest : β → Inference δ}
    (hfirst : Twins idle first twin) (hnext : ∀ value other, Twins idle (next value) (rest other)) :
    Twins idle (first >>= next) (twin >>= rest) := by
  intro state other hlike
  obtain ⟨hmid, found, hfound, htwin⟩ := hfirst state other hlike
  obtain ⟨hlast, more, hmore, hrest⟩ := hnext (first.run state).1 (twin.run other).1 _ _ hmid
  rw [run_bind, run_bind]
  refine ⟨hlast, found ++ more, ?_, ?_⟩
  · rw [hmore, hfound, List.append_assoc]
  · rw [hrest, htwin, List.append_assoc]

theorem table : Twins idle table table := of_silent (fun _ _ hlike => hlike) (fun _ => rfl) fun _ => rfl

/-- The tables are changed by operations that do the same to the outline. -/
theorem modifyTable {f g : SymbolTable → SymbolTable}
    (h : ∀ {table other : SymbolTable}, Coherent table.scopes table.live →
      Coherent other.scopes other.live → table.outline = other.outline →
        Coherent (f table).scopes (f table).live ∧ Coherent (g other).scopes (g other).live ∧
          (f table).outline = (g other).outline) :
    Twins idle (modifyTable f) (modifyTable g) := by
  refine of_silent (fun state other hlike => ?_) (fun _ => rfl) fun _ => rfl
  obtain ⟨hleft, hright, houtline⟩ := h hlike.left hlike.right hlike.outline
  exact ⟨hleft, hright, houtline, hlike.idle⟩

theorem seek (line place : Nat) : Twins idle (seek line) (seek place) :=
  modifyTable fun hleft hright houtline => ⟨hleft, hright, houtline⟩

theorem enter (line place : Nat) : Twins idle (enter line) (enter place) := seek _ _

theorem define (name : String) (type other : SymbolType) (line place : Nat) :
    Twins idle (define name type line) (define name other place) := by
  refine modifyTable fun hleft hright houtline => ?_
  refine ⟨coherent_step hleft (.define _), coherent_step hright (.define _), ?_⟩
  rw [outline_define hleft, outline_define hright, houtline]

theorem defineAll (names : List String) (type other : SymbolType) (line place : Nat) :
    Twins idle (defineAll names type line) (defineAll names other place) := by
  induction names with
  | nil => exact pure _ _
  | cons name rest ih => exact bind (define name type other line place) fun _ _ => ih

theorem of_quiet {part : Inference α} {twin : Inference β} (hpart : Quiet part) (htwin : Quiet twin) :
    Twins idle part twin := by
  refine of_silent (fun state other hlike => ?_) (fun state => (hpart state).2.2) fun state => (htwin state).2.2
  obtain ⟨htable, htracker, _⟩ := hpart state
  obtain ⟨hother, hidle, _⟩ := htwin other
  constructor
  · rw [htable]
    exact hlike.left
  · rw [hother]
    exact hlike.right
  · rw [htable, hother]
    exact hlike.outline
  · rw [htracker, hidle]
    exact hlike.idle

theorem track (f g : AssignmentTracker → AssignmentTracker) : Twins false (track f) (track g) :=
  of_silent (fun _ _ hlike => ⟨hlike.left, hlike.right, hlike.outline, nofun⟩) (fun _ => rfl) fun _ => rfl

/-- A name is looked up on both sides, and is missing on both or on none. -/
theorem resolve {site place : Site} (h : site.text = place.text) :
    Twins idle (resolve site) (resolve place) := by
  have hrun (site : Site) (state : State) : ((Inference.resolve site).run state).2.namings = state.namings ++
      if state.table.resolve? site.text = none then [.undefinedSymbol site.text] else [] := by
    rw [run_resolve, State.namings, State.use]
    simp only [List.filterMap_append, State.namings]
    cases state.table.resolve? site.text <;> rfl
  intro state other hlike
  have hsame : state.table.resolve? site.text = none ↔ other.table.resolve? site.text = none := by
    rw [resolve?_eq_none, resolve?_eq_none, hlike.outline]
  refine ⟨⟨hlike.left, hlike.right, hlike.outline, hlike.idle⟩, _, hrun site state, ?_⟩
  rw [hrun place other, ← h, if_congr hsame rfl rfl]

private theorem namings_close (state : State) (line : Nat) : (state.close line).namings = state.namings := by
  unfold State.close State.namings
  split <;> rfl

theorem within {name label : String} {opened closed start stop : Nat} {body twin : Inference Unit}
    (h : Twins idle body twin) : Twins idle (within name opened closed body) (within label start stop twin) := by
  intro state other hlike
  have hpush (name : String) (line : Nat) {table : SymbolTable} (hcoherent : Coherent table.scopes table.live) :
      Coherent (table.push name line).scopes (table.push name line).live :=
    coherent_step hcoherent (.push name line)
  obtain ⟨hlater, found, hfound, htwin⟩ := h { state with table := state.table.push name opened }
    { other with table := other.table.push label start } ⟨hpush _ _ hlike.left, hpush _ _ hlike.right, by
      dsimp only
      rw [outline_push hlike.left, outline_push hlike.right, hlike.outline], hlike.idle⟩
  rw [run_within, run_within]
  refine ⟨⟨?_, ?_, ?_, ?_⟩, found, ?_, ?_⟩
  · rw [State.table_close]
    exact coherent_step hlater.left (.pop closed)
  · rw [State.table_close]
    exact coherent_step hlater.right (.pop stop)
  · rw [State.table_close, State.table_close, outline_pop hlater.left, outline_pop hlater.right, hlater.outline]
  · rw [State.tracker_close, State.tracker_close]
    exact hlater.idle
  · rw [namings_close]
    exact hfound
  · rw [namings_close]
    exact htwin

theorem isolated {name label : String} {line place : Nat} {body twin : Inference Unit}
    (h : Twins idle body twin) : Twins idle (isolated name line body) (isolated label place twin) :=
  bind table fun _ _ => bind (within h) fun _ _ => seek _ _

/-- Parts that leave no targets over are twins between statements too. -/
theorem between {part : Inference α} {twin : Inference β} (h : Twins false part twin) (hpart : Idles part)
    (htwin : Idles twin) : Twins true part twin := by
  intro state other hlike
  obtain ⟨hlater, hfound⟩ := h state other ⟨hlike.left, hlike.right, hlike.outline, nofun⟩
  obtain ⟨hidle, hother⟩ := hlike.idle rfl
  exact ⟨⟨hlater.left, hlater.right, hlater.outline, fun _ => ⟨hpart state hidle, htwin other hother⟩⟩, hfound⟩

end Twins

end Inference

end QuantumScript
