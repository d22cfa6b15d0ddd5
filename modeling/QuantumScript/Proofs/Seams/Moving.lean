import QuantumScript.Proofs.Reading.Placing
/-!
# Moving the abstract syntax

All offsets of a part are moved by one function. Reading a tree at the new place gives the moved part,
wherever the function keeps the distances within the tree.
-/

namespace QuantumScript

/-- Both ends are moved. -/
def Span.move (f : Nat → Nat) (span : Span) : Span := ⟨f span.start, f span.stop⟩

namespace Ast

open Syntax

variable (f : Nat → Nat)

def Extent.move (extent : Extent) : Extent :=
  ⟨extent.span.move f, extent.first.map fun leaf => { leaf with span := leaf.span.move f },
    f extent.last⟩

/-- All offsets are moved. -/
def Placing.move : Placing := ⟨Extent.move f, Span.move f⟩

@[simp] theorem Placing.extent_move (extent : Extent) :
    (Placing.move f).extent extent = extent.move f := rfl

@[simp] theorem Placing.span_move (span : Span) : (Placing.move f).span span = span.move f := rfl

theorem Extent.core_move (extent : Extent) : (extent.move f).core = extent.core.move f := by
  obtain ⟨span, first, last⟩ := extent
  cases first <;> rfl

namespace Part

@[simp] theorem extent_move (part : Part) :
    (part.place (.move f)).extent = part.extent.move f := by
  cases part with
  | leaf part =>
    simp only [place, extent, leafExtent, Leaf.place, Placing.move, Extent.move]
    split <;> rfl
  | _ =>
    rename_i part
    cases part <;> rfl

section Parts

variable (parts : List Part)

private theorem extentOf_move (start : Nat) :
    extentOf (f start) (parts.map (place (.move f))) = (extentOf start parts).move f := by
  have hsignificant : (parts.map (place (.move f))).filter (fun part => part.extent.first.isSome) =
      (parts.filter fun part => part.extent.first.isSome).map (place (.move f)) := by
    rw [List.filter_map]
    congr 1
    apply List.filter_congr
    intro part _
    simp [Extent.move]
  have hstop : ((parts.map (place (.move f))).getLast?.map
      fun part => part.extent.span.stop).getD (f start) =
      f ((parts.getLast?.map fun part => part.extent.span.stop).getD start) := by
    rw [List.getLast?_map]
    cases parts.getLast? with
    | none => rfl
    | some part => simp [Extent.move, Span.move]
  unfold extentOf
  dsimp only
  rw [hstop, hsignificant, List.head?_map, List.getLast?_map]
  unfold Extent.move Span.move
  congr 1
  · cases (parts.filter fun part => part.extent.first.isSome).head? with
    | none => rfl
    | some part => simp [Extent.move, Span.move]
  · cases (parts.filter fun part => part.extent.first.isSome).getLast? with
    | none => rfl
    | some part => simp [Extent.move]

private theorem assemble_move (kind : NodeKind) (start : Nat) :
    assemble kind (extentOf (f start) (parts.map (place (.move f)))) (parts.map (place (.move f))) =
      (assemble kind (extentOf start parts) parts).place (.move f) := by
  rw [extentOf_move]
  exact assemble_place (.move f) parts kind (extentOf start parts)

end Parts

theorem extent_assemble (kind : NodeKind) (extent : Extent) (parts : List Part) :
    (assemble kind extent parts).extent = extent := by
  cases kind <;> rfl

mutual

private theorem stop_ofTree (start : Nat) (tree : Tree) :
    (ofTree start tree).extent.span.stop = start + tree.byteLength := by
  match tree with
  | .token kind text => rfl
  | .node kind children =>
    rw [ofTree, extent_assemble]
    exact stop_ofTrees start children

theorem stop_ofTrees (start : Nat) (trees : List Tree) :
    (((ofTrees start trees).getLast?.map fun part => part.extent.span.stop).getD start) =
      start + Tree.byteLengthAll trees := by
  match trees with
  | [] => rfl
  | tree :: trees =>
    have hstop := stop_ofTree start tree
    have hrest := stop_ofTrees (start + tree.byteLength) trees
    rw [ofTrees, hstop, List.getLast?_cons, Tree.byteLengthAll, ← Nat.add_assoc, ← hrest]
    cases (ofTrees (start + tree.byteLength) trees).getLast? with
    | none => exact hstop
    | some last => rfl

end

theorem ofTrees_cons (start : Nat) (tree : Tree) (trees : List Tree) :
    ofTrees start (tree :: trees) =
      ofTree start tree :: ofTrees (start + tree.byteLength) trees := by
  rw [ofTrees, stop_ofTree]

theorem ofTrees_append (start : Nat) (trees others : List Tree) :
    ofTrees start (trees ++ others) =
      ofTrees start trees ++ ofTrees (start + Tree.byteLengthAll trees) others := by
  induction trees generalizing start with
  | nil => rfl
  | cons tree trees ih =>
    rw [List.cons_append, ofTrees_cons, ofTrees_cons, ih, Tree.byteLengthAll, List.cons_append,
      Nat.add_assoc]

mutual

private theorem ofTree_move (start : Nat) (tree : Tree)
    (h : ∀ more ≤ tree.byteLength, f (start + more) = f start + more) :
    ofTree (f start) tree = (ofTree start tree).place (.move f) := by
  match tree with
  | .token kind text =>
    have hstop := h (Text.byteLength text) (Nat.le_refl _)
    simp only [ofTree, place, Leaf.place, Placing.move, Span.move, hstop]
  | .node kind children =>
    rw [ofTree, ofTree, ofTrees_move start children h, assemble_move]

theorem ofTrees_move (start : Nat) (trees : List Tree)
    (h : ∀ more ≤ Tree.byteLengthAll trees, f (start + more) = f start + more) :
    ofTrees (f start) trees = (ofTrees start trees).map (place (.move f)) := by
  match trees with
  | [] => rfl
  | tree :: trees =>
    rw [Tree.byteLengthAll] at h
    have hfirst := ofTree_move start tree fun more hle => h more (by omega)
    have hnext := h tree.byteLength (by omega)
    have hrest := ofTrees_move (start + tree.byteLength) trees fun more hle => by
      rw [Nat.add_assoc, h _ (by omega), hnext, Nat.add_assoc]
    rw [ofTrees_cons, ofTrees_cons, hfirst, ← hnext, hrest]
    rfl

end

end Part

end Ast

end QuantumScript
