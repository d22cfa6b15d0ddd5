import QuantumScript.Proofs.Parsing.Sketch
import QuantumScript.Proofs.Reading.Placing
/-!
# The sense of a tree

What a tree is read as, but for all places. It can be told without knowing where the tree stands, and
neither the blanks nor the comments in the tree matter for it.
-/

namespace QuantumScript

namespace Ast

open Syntax

/-- The extent of what has no place. -/
def nowhere : Extent := ⟨⟨0, 0⟩, none, 0⟩

/-- All places are forgotten. -/
def Placing.forget : Placing := ⟨fun _ => nowhere, fun _ => ⟨0, 0⟩⟩

namespace Part

mutual

/-- What a tree is read as, without any place. -/
def sense : Tree → Part
  | .token kind text => .leaf ⟨kind, String.ofList text, ⟨0, 0⟩⟩
  | .node kind children => assemble kind nowhere (senses children)

def senses : List Tree → List Part
  | [] => []
  | tree :: trees => sense tree :: senses trees

end

theorem senses_append (trees others : List Tree) :
    senses (trees ++ others) = senses trees ++ senses others := by
  induction trees with
  | nil => rfl
  | cons tree trees ih => rw [List.cons_append, senses, senses, ih, List.cons_append]

section Maps

variable {α β : Type} (values : List α)

theorem filterMap_map_none {pick : Part → Option β} {part : α → Part}
    (h : ∀ value, pick (part value) = none) : (values.map part).filterMap pick = [] := by
  rw [List.filterMap_map, List.filterMap_eq_nil_iff]
  exact fun value _ => h value

theorem findSome?_map_none {pick : Part → Option β} {part : α → Part}
    (h : ∀ value, pick (part value) = none) : (values.map part).findSome? pick = none := by
  rw [← List.head?_filterMap, filterMap_map_none values h, List.head?_nil]

theorem filterMap_map_picked {pick : Part → Option β} {part : α → Part} {picked : α → β}
    (h : ∀ value, pick (part value) = some (picked value)) :
    (values.map part).filterMap pick = values.map picked := by
  rw [List.filterMap_map, ← List.filterMap_eq_map]
  exact congrArg (List.filterMap · values) (funext h)

theorem filterMap_map_some {pick : Part → Option α} {part : α → Part}
    (h : ∀ value, pick (part value) = some value) : (values.map part).filterMap pick = values :=
  (filterMap_map_picked values h).trans (List.map_id values)

theorem hasToken_map {kind : TokenKind} {part : α → Part}
    (h : ∀ value, hasToken kind [part value] = false) :
    hasToken kind (values.map part) = false := by
  induction values with
  | nil => rfl
  | cons value values ih =>
    have hvalue := h value
    rw [hasToken, List.any_cons, List.any_nil, Bool.or_false] at hvalue
    rw [List.map_cons, hasToken, List.any_cons, hvalue, Bool.false_or]
    exact ih

end Maps

theorem hasToken_append (kind : TokenKind) (parts others : List Part) :
    hasToken kind (parts ++ others) = (hasToken kind parts || hasToken kind others) :=
  List.any_append

mutual

/-- Wherever a tree is read from, its sense is what is left without places. -/
theorem ofTree_forget (start : Nat) (tree : Tree) :
    (ofTree start tree).place .forget = sense tree := by
  match tree with
  | .token kind text => rfl
  | .node kind children =>
    have hchildren := ofTrees_forget start children
    rw [ofTree, ← assemble_place, hchildren]
    rfl

theorem ofTrees_forget (start : Nat) (trees : List Tree) :
    (ofTrees start trees).map (place .forget) = senses trees := by
  match trees with
  | [] => rfl
  | tree :: trees => rw [ofTrees, List.map_cons, ofTree_forget, ofTrees_forget, senses]

end

/-- A blank or a comment. -/
def isTrivia : Part → Bool
  | .leaf part => part.kind.isTrivia
  | _ => false

private theorem isTrivia_sense (tree : Tree) : (sense tree).isTrivia = tree.isTrivia := by
  cases tree with
  | token kind text => rfl
  | node kind children => cases kind <;> rfl

/-- The parts that are left without blanks and comments. -/
def solid (parts : List Part) : List Part := parts.filter fun part => !part.isTrivia

section Solid

theorem filterMap_solid {α : Type} (pick : Part → Option α)
    (h : ∀ leaf : Leaf, leaf.kind.isTrivia = true → pick (.leaf leaf) = none)
    (parts : List Part) : (solid parts).filterMap pick = parts.filterMap pick := by
  rw [solid, List.filterMap_filter]
  congr 1
  funext part
  cases htrivia : part.isTrivia with
  | false => rfl
  | true =>
    cases part with
    | leaf part => exact (h part htrivia).symm
    | _ => cases htrivia

private theorem findSome?_solid {α : Type} (pick : Part → Option α)
    (h : ∀ leaf : Leaf, leaf.kind.isTrivia = true → pick (.leaf leaf) = none)
    (parts : List Part) : (solid parts).findSome? pick = parts.findSome? pick := by
  rw [← List.head?_filterMap, ← List.head?_filterMap, filterMap_solid pick h]

private theorem hasToken_solid {kind : TokenKind} (h : kind.isTrivia = false) (parts : List Part) :
    hasToken kind (solid parts) = hasToken kind parts := by
  rw [hasToken, solid, List.any_filter, hasToken]
  congr 1
  funext part
  cases part with
  | leaf part =>
    by_cases hkind : part.kind = kind
    · simp [isTrivia, hkind, h]
    · simp [hkind]
  | _ => rfl

variable (parts : List Part)

private theorem assemble_solid (kind : NodeKind) (extent : Extent) :
    assemble kind extent (solid parts) = assemble kind extent parts := by
  have hleaf : ∀ leaf : Leaf, leaf.kind.isTrivia = true → significantLeaf? (.leaf leaf) = none :=
    fun leaf h => if_pos h
  have hsymbol (symbol : Symbol) := @hasToken_solid (.symbol symbol) rfl parts
  have hkeyword (keyword : Keyword) := @hasToken_solid (.keyword keyword) rfl parts
  have hbracket : bracket? (solid parts) = bracket? parts := by
    simp only [bracket?, List.find?_cons, List.find?_nil, hsymbol]
  have hnodes {α : Type} (pick : Part → Option α) (h : ∀ leaf, pick (.leaf leaf) = none) :=
    And.intro (filterMap_solid pick (fun leaf _ => h leaf) parts)
      (findSome?_solid pick (fun leaf _ => h leaf) parts)
  cases kind <;>
    simp only [assemble, operator?, hasStars, hsymbol, hkeyword, hbracket,
      filterMap_solid significantLeaf? hleaf, findSome?_solid significantLeaf? hleaf,
      hnodes expr? fun _ => rfl, hnodes name? fun _ => rfl, hnodes trailer? fun _ => rfl,
      hnodes arguments? fun _ => rfl, hnodes clause? fun _ => rfl, hnodes argument? fun _ => rfl,
      hnodes subscript? fun _ => rfl, hnodes parameters? fun _ => rfl,
      hnodes parameter? fun _ => rfl, hnodes (holder? _) fun _ => rfl,
      hnodes dottedName? fun _ => rfl, hnodes importAlias? fun _ => rfl,
      hnodes withItem? fun _ => rfl, hnodes suite? fun _ => rfl, hnodes branch? fun _ => rfl,
      hnodes handler? fun _ => rfl, hnodes (block? _) fun _ => rfl,
      hnodes statement? fun _ => rfl]

end Solid

mutual

theorem sense_bare (tree : Tree) : sense tree.bare = sense tree := by
  match tree with
  | .token kind text => rfl
  | .node kind children =>
    rw [Tree.bare, sense, senses_bareAll children, assemble_solid, sense]

/-- Without blanks and comments, trees have the same senses but for these. -/
theorem senses_bareAll (trees : List Tree) :
    senses (Tree.bareAll trees) = solid (senses trees) := by
  match trees with
  | [] => rfl
  | tree :: trees =>
    rw [Tree.bareAll, senses, solid, List.filter_cons, isTrivia_sense]
    cases tree.isTrivia with
    | false =>
      change sense tree.bare :: senses (Tree.bareAll trees) = sense tree :: solid (senses trees)
      rw [sense_bare tree, senses_bareAll trees]
    | true => exact senses_bareAll trees

end

end Part

/-- The statements of a file are those among the senses of what the file holds. -/
theorem Script.ofTree_forget {tree : Tree} {trees : List Tree}
    (h : tree.bare = .node .file trees) :
    (Script.ofTree tree).place .forget =
      ⟨nowhere, (Part.senses trees).filterMap Part.statement?⟩ := by
  cases tree with
  | token kind text => cases h
  | node kind children =>
    obtain ⟨rfl, rfl⟩ := Tree.node.inj h
    have hsense := Part.ofTree_forget 0 (.node .file children)
    rw [← Part.sense_bare] at hsense
    exact Part.script.inj hsense

end Ast

end QuantumScript
