import QuantumScript.Inference.Expressions
import QuantumScript.Proofs.Scoping.Surroundings
import QuantumScript.Proofs.Walking.Steps
/-!
# Local walks

An expression has scopes of its own, those of its lambdas and comprehensions, and binds names in them
only. So its walk leaves the scopes around it and the position as they are, and each use in it is looked
up inside the table that the walk came with. Of the assignment on its way it changes the side that is
walked, and this side then starts with a variable if the expression does.
-/

namespace QuantumScript

namespace AssignmentTracker

/-- The side that is walked keeps its first token. Afterwards it starts with a variable if it did before
or if the change marks it. -/
def Marks (marks : Bool) (tracker later : AssignmentTracker) : Prop :=
  ∃ f : Side → Side, later = tracker.modifyLast f ∧
    ∀ side, (f side).first = side.first ∧ (f side).chain.isSome = (marks || side.chain.isSome)

namespace Marks

variable {tracker later last : AssignmentTracker}

theorem refl (tracker : AssignmentTracker) : tracker.Marks false tracker := by
  refine ⟨id, ?_, fun _ => ⟨rfl, rfl⟩⟩
  rw [modifyLast]
  split
  · rfl
  · rename_i side rest hpending
    rw [id, ← hpending]

theorem trans {marks more : Bool} (h : tracker.Marks marks later) (hlast : later.Marks more last) :
    tracker.Marks (marks || more) last := by
  obtain ⟨f, rfl, hf⟩ := h
  obtain ⟨g, rfl, hg⟩ := hlast
  refine ⟨g ∘ f, ?_, ?_⟩
  · obtain ⟨pending, targets⟩ := tracker
    cases pending <;> rfl
  · intro side
    refine ⟨(hg (f side)).1.trans (hf side).1, ?_⟩
    rw [Function.comp_apply, (hg (f side)).2, (hf side).2]
    cases marks <;> cases more <;> rfl

theorem variableAt (tracker : AssignmentTracker) (site : Site) :
    tracker.Marks true (tracker.variableAt site) :=
  ⟨fun side => { side with chain := some (.start site) }, rfl, fun _ => ⟨rfl, rfl⟩⟩

theorem modifyChain (tracker : AssignmentTracker) (f : AccessChain → AccessChain) :
    tracker.Marks false (tracker.modifyChain f) := by
  refine ⟨fun side => { side with chain := side.chain.map f }, rfl, fun side => ⟨rfl, ?_⟩⟩
  exact Option.isSome_map

end Marks

end AssignmentTracker

namespace Inference

open SymbolTable
open Text (LineIndex)

@[simp] theorem State.uses_close (state : State) (line : Nat) : (state.close line).uses = state.uses := by
  unfold close
  split <;> rfl

@[simp] theorem State.tracker_close (state : State) (line : Nat) :
    (state.close line).tracker = state.tracker := by
  unfold close
  split <;> rfl

/-- The part of a walk is put together from steps of an expression on the line. Names are bound only
within a scope of the expression. The walk may mark the side of an assignment that is walked. -/
inductive Local (line : Nat) : (owned marks : Bool) → {α : Type} → Inference α → Prop
  | pure {owned : Bool} {α : Type} (value : α) : Local line owned false (pure value)
  | bind {owned marks more : Bool} {α β : Type} {first : Inference α} {next : α → Inference β}
      (hfirst : Local line owned marks first) (hnext : ∀ value, Local line owned more (next value)) :
      Local line owned (marks || more) (first >>= next)
  | table {owned : Bool} : Local line owned false table
  | report {owned : Bool} {found : List Diagnostic}
      (h : ∀ diagnostic ∈ found, diagnostic.isUndefined = false) :
      Local line owned false (report found)
  | track {owned marks : Bool} {f : AssignmentTracker → AssignmentTracker}
      (h : ∀ tracker : AssignmentTracker, tracker.Marks marks (f tracker)) : Local line owned marks (track f)
  | resolve {owned : Bool} (site : Site) : Local line owned false (resolve site)
  | define (name : String) (type : SymbolType) : Local line true false (define name type line)
  | isolated {owned : Bool} {name : String} {body : Inference Unit} (hbody : Local line true false body) :
      Local line owned false (isolated name line body)

namespace Local

variable {line : Nat} {owned marks : Bool} {α β : Type}

/-- A part that marks nothing comes first. -/
theorem next {first : Inference α} {next : α → Inference β} (hfirst : Local line owned false first)
    (hnext : ∀ value, Local line owned marks (next value)) :
    Local line owned marks (first >>= next) := by
  have hbind := hfirst.bind hnext
  rwa [Bool.false_or] at hbind

/-- What comes after a part marks nothing. -/
theorem rest {first : Inference α} {next : α → Inference β} (hfirst : Local line owned marks first)
    (hnext : ∀ value, Local line owned false (next value)) :
    Local line owned marks (first >>= next) := by
  have hbind := hfirst.bind hnext
  rwa [Bool.or_false] at hbind

/-- A local walk is a walk, whatever lines it keeps to. -/
theorem walk {region : Region} {part : Inference α} (h : Local line owned marks part)
    (hline : region.Has line) : Walk region part := by
  induction h generalizing region with
  | pure value => exact .pure value
  | bind _ _ hfirst hnext => exact .bind (hfirst hline) fun value => hnext value hline
  | table => exact .table
  | report hfound => exact .report hfound
  | track _ => exact .track _
  | resolve site => exact .resolve site
  | define name type => exact walk_define hline name type
  | isolated _ hbody => exact .isolated hline (hbody hline.holds.narrow_has)

end Local

/-- What a local walk makes of a state that is inside a base. -/
structure Stays (line : Nat) (base : SymbolTable) (opened : List Nat) (marks : Bool)
    (state later : State) : Prop where
  table : Inside line base opened later.table
  uses : ∃ added, later.uses = state.uses ++ added ∧
    ∀ use ∈ added, ∃ more, Inside line base (more ++ opened) use.table
  tracker : state.tracker.Marks marks later.tracker

namespace Stays

variable {line : Nat} {base : SymbolTable} {opened : List Nat} {marks more : Bool}
  {state mid later : State}

theorem trans (h : Stays line base opened marks state mid) (hmore : Stays line base opened more mid later) :
    Stays line base opened (marks || more) state later := by
  obtain ⟨added, hadded, hinside⟩ := h.uses
  obtain ⟨others, hothers, hthen⟩ := hmore.uses
  refine ⟨hmore.table, ⟨added ++ others, ?_, ?_⟩, h.tracker.trans hmore.tracker⟩
  · rw [hothers, hadded, List.append_assoc]
  · exact List.forall_mem_append.mpr ⟨hinside, hthen⟩

private theorem of_table (htable : Inside line base opened later.table) (huses : later.uses = state.uses)
    (htracker : later.tracker = state.tracker) : Stays line base opened false state later := by
  refine ⟨htable, ⟨[], ?_, nofun⟩, ?_⟩
  · rw [huses, List.append_nil]
  · rw [htracker]
    exact AssignmentTracker.Marks.refl _

end Stays

/-- A local walk keeps to the inside of the base that it starts in. It may bind names only if a scope is
open there. -/
theorem Local.stays {line : Nat} {owned marks : Bool} {α : Type} {part : Inference α}
    (h : Local line owned marks part) {base : SymbolTable} {opened : List Nat} {state : State}
    (hinside : Inside line base opened state.table) (howned : owned = true → opened ≠ []) :
    Stays line base opened marks state (part.run state).2 := by
  induction h generalizing opened state with
  | pure value => exact .of_table hinside rfl rfl
  | bind _ _ hfirst hnext =>
    have hearly := hfirst hinside howned
    exact hearly.trans (hnext _ hearly.table howned)
  | table => exact .of_table hinside rfl rfl
  | report _ => exact .of_table hinside rfl rfl
  | track hmarks => exact ⟨hinside, ⟨[], (List.append_nil _).symm, nofun⟩, hmarks state.tracker⟩
  | resolve site =>
    have huses : ((Inference.resolve site).run state).2.uses = state.uses ++ [⟨site, state.table⟩] := rfl
    refine ⟨hinside, ⟨_, huses, ?_⟩, AssignmentTracker.Marks.refl _⟩
    exact List.forall_mem_singleton.mpr ⟨[], hinside⟩
  | define name type => exact .of_table (hinside.define (howned rfl) name type) rfl rfl
  | @isolated owned name body _ hbody =>
    -- The body runs one scope further inside; closing this scope leads back.
    have hpush := hinside.push name
    have hstays := @hbody (state.table.scopes.length :: opened)
      { state with table := state.table.push name line } hpush (fun _ => List.cons_ne_nil _ _)
    obtain ⟨added, hadded, huses⟩ := hstays.uses
    rw [run_isolated]
    refine ⟨?_, ⟨added, ?_, ?_⟩, ?_⟩
    · dsimp only
      rw [State.table_close]
      exact hinside.leave hstays.table
    · dsimp only
      rw [State.uses_close]
      exact hadded
    · intro use hmem
      obtain ⟨more, hmore⟩ := huses use hmem
      refine ⟨more ++ [state.table.scopes.length], ?_⟩
      rw [List.append_assoc]
      exact hmore
    · dsimp only
      rw [State.tracker_close]
      exact hstays.tracker

/-- So it stays inside the table that it starts from if it binds nothing outside its own scopes. -/
theorem Local.stays_self {line : Nat} {marks : Bool} {α : Type} {part : Inference α}
    (h : Local line false marks part) (state : State) :
    Stays line state.table [] marks state (part.run state).2 :=
  h.stays (Inside.refl line state.table) nofun

section Parts

variable {line : Nat} {owned : Bool}

theorem local_trackIf (tracked : Bool) {marks : Bool} {f : AssignmentTracker → AssignmentTracker}
    (h : ∀ tracker : AssignmentTracker, tracker.Marks marks (f tracker)) :
    Local line owned (tracked && marks) (trackIf tracked f) := by
  cases tracked with
  | true => exact .track h
  | false => exact .pure ()

theorem local_defineAll (names : List String) (type : SymbolType) :
    Local line true false (defineAll names type line) := by
  induction names with
  | nil => exact .pure _
  | cons name rest ih => exact .next (.define name type) fun _ => ih

theorem local_defineLoopTarget (target iterable : Option Ast.Expr) (iterated : Option SymbolType) :
    Local line true false (defineLoopTarget line target iterable iterated) := by
  unfold defineLoopTarget
  split
  · exact .pure ()
  · exact .next .table fun _ => local_defineAll _ _

theorem local_name (index : LineIndex) (tracked : Bool) (part : Ast.Name) :
    Local line owned (tracked && part.ident.isSome) (name index tracked part) := by
  unfold name
  cases part.ident with
  | none =>
    rw [Option.isSome_none, Bool.and_false]
    exact .pure none
  | some leaf =>
    refine .rest (local_trackIf tracked fun tracker => .variableAt tracker _) fun _ => ?_
    exact .next (.resolve _) fun _ => .pure _

theorem local_access (receiver : Option SymbolType) (site : Site) (called : Bool) :
    Local line owned false (access receiver site called) := by
  unfold access
  split
  · exact .pure _
  · refine .next .table fun table => ?_
    split
    · split <;> exact .pure _
    · split
      · exact .next (.report (List.forall_mem_singleton.mpr rfl)) fun _ => .pure _
      · exact .next (.pure _) fun _ => .pure _
    · exact .pure _

theorem local_call (callee : Callee) (arguments : List CallArgument) :
    Local line owned false (call callee arguments) := by
  unfold call
  refine .next .table fun table => ?_
  split
  · exact .next (.report (Signature.not_isUndefined_check _ _ _ _)) fun _ => .pure _
  · split
    · exact .next (.report (Signature.not_isUndefined_check _ _ _ _)) fun _ => .pure _
    · exact .next (.pure _) fun _ => .pure _
  · exact .pure _

end Parts

end Inference

end QuantumScript
