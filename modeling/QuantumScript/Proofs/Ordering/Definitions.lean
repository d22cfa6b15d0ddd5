import QuantumScript.Proofs.Ordering.Statements
import QuantumScript.Proofs.Binding.Definitions
/-!
# Walks of definitions in any order

A definition at the top level binds its name there, and nothing else in it is bound outside. If the name is
there already, the outline after the definition is the one before it. So among definitions whose names are
there from the start, what the walk of one of them finds missing does not depend on those in front of it.
-/

namespace QuantumScript

namespace Ast.Statement

/-- The name of a definition of a function or class, if it has one. -/
def definedName? : Statement → Option String
  | .function _ _ name _ _ _ | .classDefinition _ _ name _ _ => name.bind Name.text
  | _ => none

@[simp] theorem definedName?_place (g : Placing) (s : Statement) : (s.place g).definedName? = s.definedName? := by
  cases s with
  | function extent decorated name parameters returns body => exact Name.bind_text_place g name
  | classDefinition extent decorated name bases body => exact Name.bind_text_place g name
  | _ => rfl

end Ast.Statement

private theorem Outline.bind_of_mem {name : String} {names : Set String} {outer : Outline} (h : name ∈ names) :
    Outline.bind name (names :: outer) = names :: outer := by
  rw [Outline.bind, Set.singleton_union, Set.insert_eq_of_mem h]

namespace Inference

open SymbolTable
open Text (LineIndex)

/-- What the part of a walk does to the outline. -/
def Outlined {α : Type} (change : Outline → Outline) (part : Inference α) : Prop :=
  ∀ state : State, Coherent state.table.scopes state.table.live →
    Coherent (part.run state).2.table.scopes (part.run state).2.table.live ∧
      (part.run state).2.table.outline = change state.table.outline

namespace Outlined

variable {α β : Type} {change : Outline → Outline}

theorem next {first : Inference α} {next : α → Inference β} (hfirst : Outlined id first)
    (hnext : ∀ value, Outlined change (next value)) : Outlined change (first >>= next) := by
  intro state hcoherent
  obtain ⟨hmid, hkept⟩ := hfirst state hcoherent
  obtain ⟨hlater, hchanged⟩ := hnext (first.run state).1 _ hmid
  exact ⟨hlater, hchanged.trans (congrArg change hkept)⟩

theorem rest {first : Inference α} {next : α → Inference β} (hfirst : Outlined change first)
    (hnext : ∀ value, Outlined id (next value)) : Outlined change (first >>= next) := by
  intro state hcoherent
  obtain ⟨hmid, hchanged⟩ := hfirst state hcoherent
  obtain ⟨hlater, hkept⟩ := hnext (first.run state).1 _ hmid
  exact ⟨hlater, hkept.trans hchanged⟩

theorem enter (line : Nat) : Outlined id (enter line) := fun _ hcoherent => ⟨hcoherent, rfl⟩

theorem define (name : String) (type : SymbolType) (line : Nat) :
    Outlined (Outline.bind name) (define name type line) := fun _ hcoherent =>
  ⟨coherent_step hcoherent (.define _), outline_define hcoherent _⟩

private theorem of_local {line : Nat} {marks : Bool} {part : Inference α} (h : Local line false marks part) :
    Outlined id part := by
  intro state hcoherent
  have hinside := (h.stays_self state).table
  have hwalk : Walk .anywhere part := h.walk (Region.anywhere_has line)
  exact ⟨(hwalk.reaches state).coherent hcoherent,
    outline_congr (congrArg (· ++ [0]) hinside.inner) fun id hmem => hinside.scopes (hcoherent.lt_of_mem hmem)⟩

theorem within {name : String} {opened closed : Nat} {body : Inference Unit} (hbody : Walk .anywhere body) :
    Outlined id (within name opened closed body) := by
  intro state hcoherent
  have hwalk : Walk .anywhere (Inference.within name opened closed body) := .within trivial hbody
  have haround := hwalk.around (Surrounds.refl state.table) trivial
  exact ⟨(hwalk.reaches state).coherent hcoherent,
    outline_congr (congrArg (· ++ [0]) haround.table.inner) fun id hmem =>
      scopes_within hbody state (hcoherent.lt_of_mem hmem)⟩

end Outlined

section Definitions

variable (index : LineIndex)

private theorem outlined_definition {s : Ast.Statement} {name : String} (hname : s.definedName? = some name) :
    Outlined (Outline.bind name) (statement index none s) := by
  have hdecorators (line : Nat) (items : List Ast.Holder) : Outlined id (decorators index line items) :=
    .of_local (local_exprs index _)
  cases s with
  | function extent decorated own items returns body =>
    have hsome : own.bind Ast.Name.text = some name := hname
    rw [statement]
    simp only [Ast.signature?, hsome, Option.map_some]
    refine .next (.enter _) fun _ => .next (hdecorators _ _) fun _ => ?_
    refine .next (.of_local (local_defaults index _)) fun _ => ?_
    refine .rest (.define name _ _) fun _ => .within ?_
    exact .bind (walk_parameters (Region.anywhere_has _) none _) fun _ =>
      walk_suite index none body (boundsSuite_anywhere index body)
  | classDefinition extent decorated own bases body =>
    have hsome : own.bind Ast.Name.text = some name := hname
    rw [statement]
    simp only [Ast.classType?, hsome, Option.map_some, ClassType.name_inherit]
    refine .next (.enter _) fun _ => .next (hdecorators _ _) fun _ => ?_
    refine .next (.of_local (local_types index _)) fun _ => ?_
    refine .rest (.define name _ _) fun _ => .within ?_
    exact walk_suite index _ body (boundsSuite_anywhere index body)
  | _ => cases hname

end Definitions

/-- What the walk of a statement at the top level finds missing, from a table. -/
def missing (table : SymbolTable) (s : Ast.Statement) : List Finding :=
  ((statement (.ofText []) none s).run (.start table)).2.namings

/-- Definitions whose names are there from the start find the names missing that each of them finds from
there, wherever they stand. -/
theorem namings_statements (index : LineIndex) {table : SymbolTable} {names : Set String}
    (houtline : table.outline = [names]) {definitions items : List Ast.Statement}
    (hitems : List.Forall₂ (fun s item => ∃ f, item = s.place (.move f)) definitions items)
    (hknown : ∀ s ∈ definitions, ∃ name ∈ names, s.definedName? = some name)
    (hbare : ∀ s ∈ definitions, ∀ t ∈ s.nested, t.isBare = false) {state : State}
    (hlike : (State.start table).Like true state) :
    ((statements index none items).run state).2.namings =
      state.namings ++ definitions.flatMap (missing table) := by
  induction hitems generalizing state with
  | nil =>
    rw [statements, List.flatMap_nil, List.append_nil]
    rfl
  | @cons s item definitions items hitem hrest ih =>
    obtain ⟨f, rfl⟩ := hitem
    obtain ⟨⟨name, hmem, hname⟩, hknown⟩ := List.forall_mem_cons.mp hknown
    obtain ⟨hfirst, hbare⟩ := List.forall_mem_cons.mp hbare
    have hown : s.isBare = false := by
      cases s <;> first | rfl | cases hname
    have htwins : Twins true (statement (.ofText []) none s) (statement index none (s.place (.move f))) :=
      twins_statement (.ofText []) index f rfl s hown hfirst
    obtain ⟨hlater, found, hfound, hmore⟩ := htwins (.start table) state hlike
    have hmissing : missing table s = found := hfound
    -- The name is in the outline already, so the definition leaves the outline as it was.
    have hkept : ((statement index none (s.place (.move f))).run state).2.table.outline = table.outline := by
      have hplaced : (s.place (.move f)).definedName? = some name := by rw [Ast.Statement.definedName?_place, hname]
      obtain ⟨_, houtlined⟩ := outlined_definition index hplaced state hlike.right
      rw [houtlined, ← hlike.outline]
      exact houtline ▸ Outline.bind_of_mem hmem
    have hnext := ih hknown hbare ⟨hlike.left, hlater.right, hkept.symm, fun _ =>
      ⟨(hlike.idle rfl).1, (hlater.idle rfl).2⟩⟩
    rw [statements, run_bind, hnext, hmore, List.flatMap_cons, hmissing, List.append_assoc]

end Inference

end QuantumScript
