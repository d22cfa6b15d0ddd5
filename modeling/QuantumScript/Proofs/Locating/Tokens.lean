import Mathlib
import QuantumScript.Proofs.Locating.Parts
import QuantumScript.Proofs.Parsing.Shapes
/-!
# Tokens of trees

A tree that was read from a text holds tokens that are next to each other in the text, so whatever is read
from its children stands at places of the text. A node that has the shape of its kind holds a token that is
seen, unless its shape can do without one.
-/

namespace QuantumScript

open Text (Boundary byteLength)

namespace Syntax

/-- The offset stands before, between or after the tokens of the text. -/
def Edge (text : List Char) (offset : Nat) : Prop :=
  ∃ before after, Token.ofText text = before ++ after ∧ byteLength (before.flatMap Token.text) = offset

theorem Edge.boundary {text : List Char} {offset : Nat} (h : Edge text offset) : Boundary text offset := by
  obtain ⟨before, after, htokens, hoffset⟩ := h
  refine ⟨before.flatMap Token.text, after.flatMap Token.text, ?_, hoffset⟩
  rw [← List.flatMap_append, ← htokens, Token.flatMap_text_ofText]

/-- The leaves are tokens of the text, next to each other from the offset on. -/
def Spelled (text : List Char) (start : Nat) (leaves : List (TokenKind × List Char)) : Prop :=
  ∃ before own after, Token.ofText text = before ++ (own ++ after) ∧ own.map Token.entry = leaves ∧
    byteLength (before.flatMap Token.text) = start

theorem spelled_parse (text : List Char) : Spelled text 0 (parse text).tree.leaves :=
  ⟨[], Token.ofText text, [], by simp, (parse_lossless text).2.2.2.2.2.2.symm, rfl⟩

namespace Spelled

variable {text : List Char} {start : Nat}

theorem append {leaves others : List (TokenKind × List Char)} (h : Spelled text start (leaves ++ others)) :
    Spelled text start leaves ∧ Spelled text (start + byteLength (leaves.flatMap Prod.snd)) others := by
  obtain ⟨before, own, after, htokens, hleaves, rfl⟩ := h
  obtain ⟨front, back, rfl, rfl, rfl⟩ := List.map_eq_append_iff.mp hleaves
  refine ⟨⟨before, front, back ++ after, by simp [htokens], rfl, rfl⟩, before ++ front, back, after, ?_, rfl, ?_⟩
  · simp [htokens]
  · rw [List.flatMap_append, Text.byteLength_append, List.flatMap_map]
    rfl

theorem edges {leaves : List (TokenKind × List Char)} (h : Spelled text start leaves) :
    Edge text start ∧ Edge text (start + byteLength (leaves.flatMap Prod.snd)) := by
  obtain ⟨before, own, after, htokens, rfl, rfl⟩ := h
  refine ⟨⟨before, own ++ after, htokens, rfl⟩, before ++ own, after, ?_, ?_⟩
  · rw [htokens, List.append_assoc]
  · rw [List.flatMap_append, Text.byteLength_append, List.flatMap_map]
    rfl

/-- A part that is read from neighbouring trees is read from one that stands in the text. -/
theorem exists_of_mem {trees : List Tree} (h : Spelled text start (Tree.leavesAll trees)) {part : Ast.Part}
    (hmem : part ∈ Ast.Part.ofTrees start trees) :
    ∃ own, ∃ tree ∈ trees, Ast.Part.ofTree own tree = part ∧ Spelled text own tree.leaves := by
  induction trees generalizing start with
  | nil =>
    rw [Ast.Part.ofTrees] at hmem
    cases hmem
  | cons tree trees ih =>
    obtain ⟨htree, htrees⟩ := append h
    rw [Ast.Part.ofTrees_cons, Tree.byteLength_eq, Tree.text] at hmem
    rcases List.mem_cons.mp hmem with rfl | hmem
    · exact ⟨start, tree, List.mem_cons_self, rfl, htree⟩
    · obtain ⟨own, other, hother, hread, hspelled⟩ := ih htrees hmem
      exact ⟨own, other, List.mem_cons_of_mem _ hother, hread, hspelled⟩

/-- What is seen of the parts is clear. -/
theorem clear {trees : List Tree} (h : Spelled text start (Tree.leavesAll trees)) :
    ∀ part ∈ Ast.Part.ofTrees start trees, part.extent.first.isSome = true → part.extent.Clear text := by
  obtain ⟨before, own, after, htokens, hleaves, rfl⟩ := h
  refine Ast.Part.clear_ofTrees _ (after.flatMap Token.text) trees ?_ ?_
  · rw [← Token.flatMap_text_ofText text, htokens, List.flatMap_append, List.flatMap_append, ← hleaves,
      List.flatMap_map]
    rfl
  · intro leaf hmem
    refine Ast.Part.inked_parse text leaf ?_
    rw [(parse_lossless text).2.2.2.2.2.2, htokens, List.map_append, List.map_append]
    rw [← hleaves] at hmem
    exact List.mem_append_right _ (List.mem_append_left _ hmem)

end Spelled

/-- An identifier with this text stands in the text at the span. -/
def Identifier (text : List Char) (name : String) (span : Span) : Prop :=
  ∃ before token after, Token.ofText text = before ++ token :: after ∧ token.kind = .name ∧
    token.text = name.toList ∧ span.start = byteLength (before.flatMap Token.text) ∧
    span.stop = span.start + byteLength token.text

theorem Spelled.identifier {text own : List Char} {start : Nat} (h : Spelled text start [(.name, own)]) :
    Identifier text (String.ofList own) ⟨start, start + byteLength own⟩ := by
  obtain ⟨before, tokens, after, htokens, hleaves, rfl⟩ := h
  obtain ⟨token, rfl, hentry⟩ := List.map_eq_singleton_iff.mp hleaves
  obtain ⟨hkind, hown⟩ := Prod.mk.inj hentry
  refine ⟨before, token, after, htokens, hkind, ?_, rfl, by rw [hown]⟩
  rw [hown, String.toList_ofList]

/-- A token that is seen, or something that holds one. -/
def Piece.isSolid : Piece → Bool
  | .word kind => kind.isSolid
  | .name | .compound => true
  | _ => false

/-- A node of a kind whose shape needs a token holds one that is seen. -/
theorem Tree.Formed.solid {kind : NodeKind} {children : List Tree} (h : (Tree.node kind children).Formed)
    (hleast : 0 < (Shape.ofKind kind).least Piece.isSolid) :
    ∃ leaf ∈ leavesAll children, leaf.1.isSolid = true := by
  generalize htree : Tree.node kind children = tree at h
  induction h generalizing kind children with
  | token own text => cases htree
  | node hfits _ ih =>
    cases htree
    obtain ⟨piece, hmem, hsolid⟩ := hfits.exists_mem hleast
    obtain ⟨tree, htree, hpiece⟩ := mem_pieces.mp hmem
    suffices hleaf : ∃ leaf ∈ tree.leaves, leaf.1.isSolid = true by
      obtain ⟨leaf, hleaf, hseen⟩ := hleaf
      exact ⟨leaf, mem_leavesAll.mpr ⟨tree, htree, hleaf⟩, hseen⟩
    cases tree with
    | token own text =>
      rw [piece?, TokenKind.piece?] at hpiece
      split at hpiece
      all_goals cases hpiece
      exact ⟨(own, text), List.mem_singleton_self _, hsolid⟩
    | node own grandchildren =>
      refine ih _ htree ?_ rfl
      cases hpiece
      cases own <;> first | decide | cases hsolid

end Syntax

namespace Ast.Part

open Syntax

/-- Expressions, and the parts of them that are folded. -/
def isFolded : Part → Bool
  | .expr _ | .trailer _ | .argument _ => true
  | _ => false

/-- Such a part is seen if it has the shape that it should have. -/
theorem seen_of_formed {start : Nat} {tree : Tree} (hformed : tree.Formed)
    (hfolded : (ofTree start tree).isFolded = true) : (ofTree start tree).extent.first.isSome = true := by
  cases tree with
  | token kind text => cases hfolded
  | node kind children =>
    refine seen_ofTree start _ (hformed.solid ?_)
    rw [ofTree] at hfolded
    cases kind <;> first | decide | cases hfolded

/-- Only a node of an expression statement is read as one. -/
theorem kind_of_expressionStatement {start : Nat} {tree : Tree} {extent : Extent} {items : List Expr}
    {assigns augments : Bool} {hint : Option Holder}
    (h : ofTree start tree = .statement (.expressionStatement extent items assigns augments hint)) :
    ∃ children, tree = .node .expressionStatement children := by
  cases tree with
  | token kind own => cases h
  | node kind children =>
    rw [ofTree] at h
    cases kind <;> first | exact ⟨children, rfl⟩ | cases h

end Ast.Part

end QuantumScript
