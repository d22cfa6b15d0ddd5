import QuantumScript.Proofs.Walking.Occurrences
import QuantumScript.Proofs.Walking.Operations
/-!
# Visits of statements

A walk is made of parts that are run one after the other, some of them in scopes of their own. A part that is
run somewhere in it finds in the table what the operations before it put there, and what it puts there itself
is kept. Every statement is walked in such a part, however deeply it is nested, unless a definition around it
lacks its name.
-/

namespace QuantumScript

/-- The statement is walked into: it is no definition that lacks its name. -/
def Ast.Statement.isWalked : Statement → Bool
  | .function _ _ name _ _ _ | .classDefinition _ _ name _ _ => (name.bind Name.text).isSome
  | _ => true

namespace Inference

open SymbolTable
open Text (LineIndex)

/-- The state after the part of a walk. -/
def State.after {α : Type} (state : State) (part : Inference α) : State := (part.run state).2

/-- What is walked of a class above its body: the decorators, and then the bases, whose types come out. -/
def classHead (index : LineIndex) (extent : Ast.Extent) (decorated : List Ast.Holder)
    (bases : Option Ast.Arguments) : Inference (List SymbolType) := do
  let line := index.firstLine extent
  enter line
  decorators index line decorated
  types index line ((Ast.basesOf bases).map Ast.Argument.value)

/-- A class with a name is walked up to its body, then its body in a scope of its own, and then the scope is
closed. -/
theorem State.after_class {name : Option Ast.Name} {body : Option Ast.Suite} {declared : ClassType}
    (h : Ast.classType? name body = some declared) (index : LineIndex) (owner : Option ClassType)
    (extent : Ast.Extent) (decorated : List Ast.Holder) (bases : Option Ast.Arguments) (state : State) :
    let head := (classHead index extent decorated bases).run state
    let type := declared.inherit head.1
    state.after (statement index owner (.classDefinition extent decorated name bases body)) =
      ((head.2.after do
          define type.name (.classType type) (index.firstLine extent)
          openScope type.name (index.firstLine extent)).after
        (suite index (some type) body)).close (index.lastLine extent) := by
  rw [State.after, statement]
  simp only [h]
  rfl

/-- Where a part is run from a state, it comes to an inner part, which is run from the entered state. What is
run before and after the inner part are parts of a walk, and it may stand in scopes that are opened for it. -/
inductive ComesTo (inner : Inference Unit) (entered : State) : {α : Type} → Inference α → State → Prop
  | here : ComesTo inner entered inner entered
  | first {α β : Type} {first : Inference α} {next : α → Inference β} {state : State}
      (h : ComesTo inner entered first state) (hnext : ∀ value, Walk .anywhere (next value)) :
      ComesTo inner entered (first >>= next) state
  | next {α β : Type} {first : Inference α} {next : α → Inference β} {state : State}
      (hfirst : Walk .anywhere first)
      (h : ComesTo inner entered (next (first.run state).1) (state.after first)) :
      ComesTo inner entered (first >>= next) state
  | within {name : String} {opened closed : Nat} {body : Inference Unit} {state : State}
      (h : ComesTo inner entered body (state.after (openScope name opened))) :
      ComesTo inner entered (within name opened closed body) state

namespace ComesTo

variable {inner middle : Inference Unit} {entered passed state : State} {α : Type} {part : Inference α}

theorem trans (h : ComesTo middle passed part state) (hinner : ComesTo inner entered middle passed) :
    ComesTo inner entered part state := by
  induction h with
  | here => exact hinner
  | first _ hnext ih => exact .first ih hnext
  | next hfirst _ ih => exact .next hfirst ih
  | within _ ih => exact .within ih

/-- What the inner part finds in the table was put there by operations. -/
theorem reaches (h : ComesTo inner entered part state) : state.table.Reaches entered.table := by
  induction h with
  | here => exact Reaches.refl _
  | first _ _ ih => exact ih
  | next hfirst _ ih => exact (hfirst.reaches _).trans ih
  | @within name opened _ _ state _ ih => exact (Reaches.step state.table (.push name opened)).trans ih

/-- What follows the inner part comes to operations too. -/
theorem reaches_after (h : ComesTo inner entered part state) :
    (entered.after inner).table.Reaches (state.after part).table := by
  induction h with
  | here => exact Reaches.refl _
  | first _ hnext ih => exact ih.trans ((hnext _).reaches _)
  | next _ _ ih => exact ih
  | @within name opened closed body state _ ih =>
    have hclosed : state.after (Inference.within name opened closed body) =
        ((state.after (openScope name opened)).after body).close closed := rfl
    rw [hclosed, State.table_close]
    exact ih.trans (.step _ (.pop closed))

/-- The walk of a class with a name comes to that of its body. -/
theorem of_class {name : Option Ast.Name} {body : Option Ast.Suite} {declared : ClassType}
    (h : Ast.classType? name body = some declared) (index : LineIndex) (owner : Option ClassType)
    (extent : Ast.Extent) (decorated : List Ast.Holder) (bases : Option Ast.Arguments) (state : State) :
    let head := (classHead index extent decorated bases).run state
    let type := declared.inherit head.1
    let entered := head.2.after do
      define type.name (.classType type) (index.firstLine extent)
      openScope type.name (index.firstLine extent)
    ComesTo (suite index (some type) body) entered
      (statement index owner (.classDefinition extent decorated name bases body)) state := by
  intro head type entered
  have hline := Region.anywhere_has (index.firstLine extent)
  rw [statement]
  apply ComesTo.next (walk_enter hline)
  apply ComesTo.next (walk_exprs index hline _)
  apply ComesTo.next (walk_types index hline _)
  simp only [h]
  apply ComesTo.next (walk_define hline _ _)
  exact .within .here

end ComesTo

/-- The part of the walk, run from the state, comes to the walk of the statement. -/
def Visits (index : LineIndex) (s : Ast.Statement) {α : Type} (part : Inference α) (state : State) : Prop :=
  ∃ owner visited, ComesTo (statement index owner s) visited part state

section Everywhere

variable (index : LineIndex) {s : Ast.Statement}

namespace Visits

variable {index} {α β : Type} {head : Inference α} {tail : α → Inference β} {state : State}

private theorem first (h : Visits index s head state) (hnext : ∀ value, Walk .anywhere (tail value)) :
    Visits index s (head >>= tail) state := by
  obtain ⟨owner, visited, hcomes⟩ := h
  exact ⟨owner, visited, .first hcomes hnext⟩

private theorem next (hfirst : Walk .anywhere head)
    (h : Visits index s (tail (head.run state).1) (state.after head)) :
    Visits index s (head >>= tail) state := by
  obtain ⟨owner, visited, hcomes⟩ := h
  exact ⟨owner, visited, .next hfirst hcomes⟩

private theorem inside {inner : Inference Unit} {entered : State} (h : Visits index s inner entered)
    {part : Inference α} (hcomes : ComesTo inner entered part state) : Visits index s part state := by
  obtain ⟨owner, visited, hinner⟩ := h
  exact ⟨owner, visited, hcomes.trans hinner⟩

end Visits

private theorem anywhere_suite (owner : Option ClassType) (body : Option Ast.Suite) :
    Walk .anywhere (suite index owner body) :=
  walk_suite index owner body (boundsSuite_anywhere index body)

private theorem anywhere_block (owner : Option ClassType) (otherwise : Option Ast.Block) :
    Walk .anywhere (block index owner otherwise) :=
  walk_block index owner otherwise (boundsBlock_anywhere index otherwise)

private theorem anywhere_branches (line : Nat) (owner : Option ClassType) (items : List Ast.Branch) :
    Walk .anywhere (branches index line owner items) :=
  walk_branches index (Region.anywhere_has line) owner items (boundsBranches_anywhere index items)

private theorem anywhere_handlers (owner : Option ClassType) (items : List Ast.Handler) :
    Walk .anywhere (handlers index owner items) :=
  walk_handlers index owner items (boundsHandlers_anywhere index items)

private theorem Visits.last {owner : Option ClassType} {body : Option Ast.Suite} {otherwise : Option Ast.Block}
    (h : (∀ state, Visits index s (suite index owner body) state) ∨
      ∀ state, Visits index s (block index owner otherwise) state) (state : State) :
    Visits index s (do
      suite index owner body
      block index owner otherwise) state := by
  rcases h with h | h
  · exact Visits.first (h state) fun _ => anywhere_block index owner otherwise
  · exact Visits.next (anywhere_suite index owner body) (h _)

mutual

/-- The walk of a statement comes to every statement in its blocks, if the definitions around that
statement have names. -/
private theorem visits_nested (outer : Ast.Statement)
    (hnamed : ∀ d ∈ outer :: outer.nested, s ∈ d.nested → d.isWalked = true) (hmem : s ∈ outer.nested)
    (owner : Option ClassType) (state : State) : Visits index s (statement index owner outer) state := by
  obtain ⟨hwalked, hbelow⟩ := List.forall_mem_cons.mp hnamed
  have hname := hwalked hmem
  have hline := Region.anywhere_has (index.firstLine outer.extent)
  match outer with
  | .function extent decorated name items returns body =>
    obtain ⟨_, hname⟩ := Option.isSome_iff_exists.mp hname
    rw [statement]
    apply Visits.next (walk_enter hline)
    apply Visits.next (walk_exprs index hline _)
    simp only [Ast.signature?, hname, Option.map_some]
    apply Visits.next (walk_defaults index hline _)
    apply Visits.next (walk_define hline _ _)
    apply Visits.inside _ (.within .here)
    apply Visits.next (walk_parameters (Region.anywhere_has _) owner _)
    exact visits_suite body hbelow hmem none _
  | .classDefinition extent decorated name bases body =>
    obtain ⟨_, hname⟩ := Option.isSome_iff_exists.mp hname
    obtain ⟨declared, hclass⟩ : ∃ declared, Ast.classType? name body = some declared :=
      ⟨_, congrArg (Option.map _) hname⟩
    apply Visits.inside _ (.of_class hclass index owner extent decorated bases state)
    exact visits_suite body hbelow hmem _ _
  | .ifStatement extent condition body others otherwise =>
    simp only [Ast.Statement.nested, List.forall_mem_append] at hbelow
    simp only [Ast.Statement.nested, List.mem_append] at hmem
    obtain ⟨⟨hbody, hothers⟩, hotherwise⟩ := hbelow
    rw [statement]
    apply Visits.next (walk_enter hline)
    apply Visits.next (walk_optional index hline condition)
    rcases hmem with (hmem | hmem) | hmem
    · apply Visits.first (visits_suite body hbody hmem owner _)
      exact fun _ => .bind (anywhere_branches index _ owner others) fun _ => anywhere_block index owner otherwise
    · apply Visits.next (anywhere_suite index owner body)
      apply Visits.first (visits_branches others hothers hmem _ owner _)
      exact fun _ => anywhere_block index owner otherwise
    · apply Visits.next (anywhere_suite index owner body)
      apply Visits.next (anywhere_branches index _ owner others)
      exact visits_block otherwise hotherwise hmem owner _
  | .whileStatement extent condition body otherwise =>
    simp only [Ast.Statement.nested, List.forall_mem_append] at hbelow
    simp only [Ast.Statement.nested, List.mem_append] at hmem
    rw [statement]
    apply Visits.next (walk_enter hline)
    apply Visits.next (walk_optional index hline condition)
    exact .last index (hmem.imp (visits_suite body hbelow.1 · owner) (visits_block otherwise hbelow.2 · owner)) _
  | .forStatement extent target iterable body otherwise =>
    simp only [Ast.Statement.nested, List.forall_mem_append] at hbelow
    simp only [Ast.Statement.nested, List.mem_append] at hmem
    rw [statement]
    apply Visits.next (walk_enter hline)
    apply Visits.next (walk_optional index hline iterable)
    apply Visits.next (walk_defineLoopTarget hline target iterable _)
    exact .last index (hmem.imp (visits_suite body hbelow.1 · owner) (visits_block otherwise hbelow.2 · owner)) _
  | .withStatement extent items body =>
    rw [statement]
    apply Visits.next (walk_enter hline)
    apply Visits.next (walk_withItems index hline items)
    exact visits_suite body hbelow hmem owner _
  | .tryStatement extent body caught otherwise cleanup =>
    simp only [Ast.Statement.nested, List.forall_mem_append] at hbelow
    simp only [Ast.Statement.nested, List.mem_append] at hmem
    obtain ⟨⟨⟨hbody, hcaught⟩, hotherwise⟩, hcleanup⟩ := hbelow
    have hlast : ∀ _ : Unit, Walk .anywhere (do
        block index owner otherwise
        block index owner cleanup) :=
      fun _ => .bind (anywhere_block index owner otherwise) fun _ => anywhere_block index owner cleanup
    rw [statement]
    apply Visits.next (walk_enter hline)
    rcases hmem with ((hmem | hmem) | hmem) | hmem
    · apply Visits.first (visits_suite body hbody hmem owner _)
      exact fun _ => .bind (anywhere_handlers index owner caught) hlast
    · apply Visits.next (anywhere_suite index owner body)
      exact Visits.first (visits_handlers caught hcaught hmem owner _) hlast
    · apply Visits.next (anywhere_suite index owner body)
      apply Visits.next (anywhere_handlers index owner caught)
      apply Visits.first (visits_block otherwise hotherwise hmem owner _)
      exact fun _ => anywhere_block index owner cleanup
    · apply Visits.next (anywhere_suite index owner body)
      apply Visits.next (anywhere_handlers index owner caught)
      apply Visits.next (anywhere_block index owner otherwise)
      exact visits_block cleanup hcleanup hmem owner _
  | .expressionStatement _ _ _ _ _ | .passStatement _ | .breakStatement _ | .continueStatement _
  | .globalStatement _ _ _ | .returnStatement _ _ | .importStatement _ _ | .fromImportStatement _ _ _ _
  | .raiseStatement _ _ | .assertStatement _ _ | .delStatement _ _ => cases hmem

private theorem visits_statements (items : List Ast.Statement)
    (hnamed : ∀ d ∈ Ast.allStatements items, s ∈ d.nested → d.isWalked = true)
    (hmem : s ∈ Ast.allStatements items) (owner : Option ClassType) (state : State) :
    Visits index s (statements index owner items) state := by
  match items with
  | [] => cases hmem
  | outer :: rest =>
    rw [Ast.allStatements, List.forall_mem_append] at hnamed
    rw [Ast.allStatements, List.mem_append, List.mem_cons] at hmem
    have hrest : ∀ _ : Unit, Walk .anywhere (statements index owner rest) :=
      fun _ => walk_statements index owner rest (boundsAll_anywhere index rest)
    rw [statements]
    rcases hmem with (rfl | hmem) | hmem
    · exact ⟨owner, state, .first .here hrest⟩
    · exact Visits.first (visits_nested outer hnamed.1 hmem owner state) hrest
    · apply Visits.next (walk_statement index owner outer (bounds_anywhere index outer))
      exact visits_statements rest hnamed.2 hmem owner _

private theorem visits_suite (body : Option Ast.Suite)
    (hnamed : ∀ d ∈ Ast.allSuite body, s ∈ d.nested → d.isWalked = true) (hmem : s ∈ Ast.allSuite body)
    (owner : Option ClassType) (state : State) :
    Visits index s (suite index owner body) state := by
  match body with
  | none => cases hmem
  | some ⟨_, items⟩ =>
    rw [suite]
    exact visits_statements items hnamed hmem owner state

private theorem visits_branches (items : List Ast.Branch)
    (hnamed : ∀ d ∈ Ast.allBranches items, s ∈ d.nested → d.isWalked = true)
    (hmem : s ∈ Ast.allBranches items) (line : Nat) (owner : Option ClassType) (state : State) :
    Visits index s (branches index line owner items) state := by
  match items with
  | [] => cases hmem
  | ⟨_, condition, body⟩ :: rest =>
    rw [Ast.allBranches, List.forall_mem_append] at hnamed
    rw [Ast.allBranches, List.mem_append] at hmem
    rw [branches]
    apply Visits.next (walk_optional index (Region.anywhere_has line) condition)
    rcases hmem with hmem | hmem
    · apply Visits.first (visits_suite body hnamed.1 hmem owner _)
      exact fun _ => anywhere_branches index line owner rest
    · apply Visits.next (anywhere_suite index owner body)
      exact visits_branches rest hnamed.2 hmem line owner _

private theorem visits_handlers (items : List Ast.Handler)
    (hnamed : ∀ d ∈ Ast.allHandlers items, s ∈ d.nested → d.isWalked = true)
    (hmem : s ∈ Ast.allHandlers items) (owner : Option ClassType) (state : State) :
    Visits index s (handlers index owner items) state := by
  match items with
  | [] => cases hmem
  | ⟨extent, caught, name, body⟩ :: rest =>
    have hline := Region.anywhere_has (index.firstLine extent)
    rw [Ast.allHandlers, List.forall_mem_append] at hnamed
    rw [Ast.allHandlers, List.mem_append] at hmem
    rw [handlers]
    apply Visits.next (walk_enter hline)
    apply Visits.next (walk_optional index hline caught)
    apply Visits.next (walk_caughtName hline name _)
    rcases hmem with hmem | hmem
    · apply Visits.first (visits_suite body hnamed.1 hmem owner _)
      exact fun _ => anywhere_handlers index owner rest
    · apply Visits.next (anywhere_suite index owner body)
      exact visits_handlers rest hnamed.2 hmem owner _

private theorem visits_block (otherwise : Option Ast.Block)
    (hnamed : ∀ d ∈ Ast.allBlock otherwise, s ∈ d.nested → d.isWalked = true)
    (hmem : s ∈ Ast.allBlock otherwise) (owner : Option ClassType) (state : State) :
    Visits index s (block index owner otherwise) state := by
  match otherwise with
  | none => cases hmem
  | some ⟨_, body⟩ =>
    rw [block]
    exact visits_suite body hnamed hmem owner state

end

/-- The walk of a script comes to a statement anywhere in it, if no definition around the statement lacks its
name. -/
theorem visits_script (source : Ast.Script) (hnamed : ∀ d ∈ source.all, s ∈ d.nested → d.isWalked = true)
    (hmem : s ∈ source.all) (state : State) : Visits index s (script index source) state := by
  have hend : Region.anywhere.Sees (index.lastLine source.extent) := trivial
  apply Visits.first (visits_statements index source.statements hnamed hmem none state)
  exact fun _ => .change fun table => Region.Binds.reach hend table

end Everywhere

end Inference

end QuantumScript
