import QuantumScript.Proofs.Locating.Openings
import QuantumScript.Proofs.Walking.Margins
/-!
# Lines of statements

A node starts where its first token does, since no blank stands in front of it. So the line of a statement is
the line of its first token that is seen, and this token is found for each target and value of an assignment.
-/

namespace QuantumScript

open Text (byteLength)

private theorem Syntax.TokenKind.isLayout_of_isSolid {kind : TokenKind} (h : kind.isSolid = true) :
    Ast.Part.isLayout kind = false := by
  rw [isSolid, Bool.and_eq_true, Bool.not_eq_true'] at h
  exact h.1

/-- A token that is seen stands where the part starts. -/
def Ast.Extent.Led (extent : Ast.Extent) : Prop :=
  ∃ leaf, extent.first = some leaf ∧ leaf.kind.isSolid = true ∧ leaf.span.start = extent.span.start

namespace Ast.Part

open Syntax

/-- The token that stands at an offset. -/
def leafAt (offset : Nat) (entry : TokenKind × List Char) : Leaf :=
  ⟨entry.1, String.ofList entry.2, ⟨offset, offset + byteLength entry.2⟩⟩

private theorem first_extentOf (start : Nat) (parts : List Part) :
    (extentOf start parts).first = parts.findSome? fun part => part.extent.first := by
  change (parts.filter fun part => part.extent.first.isSome).head?.bind (fun part => part.extent.first) = _
  induction parts with
  | nil => rfl
  | cons part parts ih =>
    cases hfirst : part.extent.first with
    | none =>
      rw [List.filter_cons_of_neg (by simp [hfirst]), List.findSome?_cons_of_isNone (by simp [hfirst])]
      exact ih
    | some leaf =>
      rw [List.filter_cons_of_pos (by simp [hfirst]), List.findSome?_cons_of_isSome (by simp [hfirst]), hfirst]
      exact hfirst

mutual

private theorem first_ofTree (start : Nat) (tree : Tree) {entry : TokenKind × List Char}
    {rest : List (TokenKind × List Char)} (h : tree.leaves = entry :: rest) (hsolid : entry.1.isSolid = true) :
    (ofTree start tree).extent.first = some (leafAt start entry) := by
  match tree with
  | .token kind text =>
    rw [Tree.leaves] at h
    cases h
    have hlayout : isLayout kind = false := TokenKind.isLayout_of_isSolid hsolid
    simp [ofTree, extent, leafExtent, hlayout, leafAt]
  | .node kind children =>
    rw [ofTree, extent_assemble, first_extentOf]
    exact first_ofTrees start children h hsolid

private theorem first_ofTrees (start : Nat) (trees : List Tree) {entry : TokenKind × List Char}
    {rest : List (TokenKind × List Char)} (h : Tree.leavesAll trees = entry :: rest)
    (hsolid : entry.1.isSolid = true) :
    (ofTrees start trees).findSome? (fun part => part.extent.first) = some (leafAt start entry) := by
  match trees with
  | [] => cases h
  | tree :: trees =>
    rw [ofTrees_cons]
    cases hleaves : tree.leaves with
    | nil =>
      have hlength : tree.byteLength = 0 := by
        rw [Tree.byteLength_eq, Tree.text, hleaves]
        rfl
      have hunseen : (ofTree start tree).extent.first = none := unseen_ofTree start tree (by simp [hleaves])
      rw [Tree.leavesAll, hleaves] at h
      rw [List.findSome?_cons_of_isNone (by simp [hunseen]), hlength]
      exact first_ofTrees start trees h hsolid
    | cons first others =>
      rw [Tree.leavesAll, hleaves, List.cons_append] at h
      obtain ⟨rfl, -⟩ := List.cons.inj h
      have hfirst := first_ofTree start tree hleaves hsolid
      rw [List.findSome?_cons_of_isSome (by simp [hfirst]), hfirst]

end

private theorem led_of_begins (start : Nat) (kind : NodeKind) {children : List Tree}
    (h : Tree.Begins (Tree.leavesAll children)) : (ofTree start (.node kind children)).extent.Led := by
  obtain ⟨entry, rest, hleaves, hsolid⟩ := h
  refine ⟨leafAt start entry, first_ofTree start _ hleaves hsolid, hsolid, ?_⟩
  rw [start_ofTree]
  rfl

end Ast.Part

namespace Syntax

/-- What holds of the nodes of a tree below the root: none begins with a token that does not count, the
statements begin with one that is seen, and the simple ones have their shapes. -/
def Tree.Orderly : Tree → Prop := Each fun kind children =>
  kind ≠ .file → Counted (leavesAll children) ∧
    (kind.isStatement = true → Begins (leavesAll children)) ∧
    (kind.isSimple = true → Formed (.node kind children))

namespace Tree.Orderly

variable {kind : NodeKind} {children : List Tree} (h : (Tree.node kind children).Orderly)
include h

theorem child : ∀ tree ∈ children, tree.Orderly := by
  obtain _ | ⟨-, hchildren⟩ := h
  exact hchildren

theorem counted (hkind : kind ≠ .file) : Counted (leavesAll children) := by
  obtain _ | ⟨hlaw, -⟩ := h
  exact (hlaw hkind).1

theorem begins (hkind : kind.isStatement = true) : Begins (leavesAll children) := by
  obtain _ | ⟨hlaw, -⟩ := h
  have hfile : kind ≠ .file := fun hfile => by cases hfile; cases hkind
  exact (hlaw hfile).2.1 hkind

theorem formed (hkind : kind.isSimple = true) : Formed (.node kind children) := by
  obtain _ | ⟨hlaw, -⟩ := h
  have hfile : kind ≠ .file := fun hfile => by cases hfile; cases hkind
  exact (hlaw hfile).2.2 hkind

end Tree.Orderly

private theorem parse_orderly (source : List Char) : (parse source).tree.Orderly := by
  obtain _ | ⟨-, hsettled⟩ := parse_settled source
  refine .node (absurd rfl) fun tree hmem => ?_
  have hpart := List.mem_reverse.mp hmem
  refine ((parse_counted source tree hpart).and
    ((parse_begins source tree hpart).and (hsettled tree hmem))).imp ?_
  exact fun kind children h _ => h

end Syntax

namespace Ast

open Syntax

private theorem Script.exists_orderly {source : List Char} {s : Statement}
    (h : s ∈ (Script.ofTree (parse source).tree).all) :
    ∃ start tree, tree.Orderly ∧ Part.ofTree start tree = .statement s :=
  Part.mem_all_ofTree (fun _ _ horderly => horderly.child) 0 (parse source).tree (parse_orderly source) s h

private theorem Statement.led_of_orderly {start : Nat} {tree : Tree} {s : Statement} (horderly : tree.Orderly)
    (hread : Part.ofTree start tree = .statement s) : s.extent.Led := by
  cases tree with
  | token kind text => cases hread
  | node kind children =>
    have hkind : kind.isStatement = true := by
      rw [Part.ofTree] at hread
      cases kind <;> first | rfl | cases hread
    have hled := Part.led_of_begins start kind (horderly.begins hkind)
    rw [hread] at hled
    exact hled

private theorem Expr.led_of_formed {start : Nat} {tree : Tree} {e : Expr} (horderly : tree.Orderly)
    (hformed : tree.Formed) (hread : Part.ofTree start tree = .expr e) : e.extent.Led := by
  cases tree with
  | token kind text => cases hread
  | node kind children =>
    have hkind : (Shape.ofKind kind).leads = true ∧ kind ≠ .file := by
      rw [Part.ofTree] at hread
      cases kind <;> first | decide | cases hread
    obtain ⟨leaf, hopening, hsolid⟩ := hformed.opening hkind.1
    have hled := Part.led_of_begins start kind ((horderly.counted hkind.2).begins hopening hsolid)
    rw [hread] at hled
    exact hled

private theorem Expr.led_of_orderly {start : Nat} {tree : Tree} {extent : Extent} {exprs : List Expr}
    {assigns augments : Bool} {hint : Option Holder} (horderly : tree.Orderly)
    (hread : Part.ofTree start tree = .statement (.expressionStatement extent exprs assigns augments hint)) :
    ∀ e ∈ exprs, e.extent.Led := by
  obtain ⟨children, rfl⟩ := Part.kind_of_expressionStatement hread
  obtain _ | ⟨-, hformed⟩ := horderly.formed rfl
  cases hread
  intro e hmem
  obtain ⟨part, hpart, hexpr⟩ := List.mem_filterMap.mp hmem
  obtain ⟨own, child, hchild, hown⟩ := Part.exists_of_mem_ofTrees hpart
  cases part <;> cases hexpr
  exact led_of_formed (horderly.child child hchild) (hformed child hchild) hown

end Ast

/-- Whatever the source, no node below the root begins with a blank or a comment, and every statement is not
empty and begins with a token that is seen. So a statement starts on the line of its first such token, which is
not below the line of its last one, and for each target and value of an assignment the first token is found. -/
theorem nodes_begin (source : List Char) :
    let script := Ast.Script.ofTree (Syntax.parse source).tree
    let index := Text.LineIndex.ofText source
    (∃ children, (Syntax.parse source).tree = .node .file children ∧
      ∀ tree ∈ children, tree.Each fun kind own =>
        (∀ leaf ∈ (Syntax.Tree.leavesAll own).head?, leaf.1.isTrivia = false) ∧
          (kind.isStatement = true → ∃ leaf rest, Syntax.Tree.leavesAll own = leaf :: rest ∧
            Ast.Part.isLayout leaf.1 = false ∧
            ∀ start, (Ast.Part.ofTree start (.node kind own)).extent.first =
              some (Ast.Part.leafAt start leaf))) ∧
    (∀ s ∈ script.all, ∃ leaf, s.extent.first = some leaf ∧ leaf.kind.isSolid = true ∧
      index.firstLine s.extent = index.line leaf.span.start ∧
      index.firstLine s.extent ≤ index.lastLine s.extent) ∧
    ∀ extent exprs assigns augments hint,
      .expressionStatement extent exprs assigns augments hint ∈ script.all →
        ∀ e ∈ exprs, ∃ leaf, e.extent.first = some leaf ∧ leaf.span.start = e.extent.span.start ∧
          index.firstSite e.extent = index.leafSite leaf := by
  refine ⟨⟨_, rfl, fun tree hmem => ?_⟩, ?_, ?_⟩
  · have hpart := List.mem_reverse.mp hmem
    refine ((Syntax.trimmed_parseTokens _ tree hpart).and (Syntax.parse_begins source tree hpart)).imp ?_
    intro kind own ⟨htrimmed, hbegins⟩
    refine ⟨htrimmed, fun hstatement => ?_⟩
    obtain ⟨leaf, rest, hown, hsolid⟩ := hbegins hstatement
    exact ⟨leaf, rest, hown, Syntax.TokenKind.isLayout_of_isSolid hsolid,
      fun start => Ast.Part.first_ofTree start _ hown hsolid⟩
  · intro s hmem
    obtain ⟨start, tree, horderly, hread⟩ := Ast.Script.exists_orderly hmem
    obtain ⟨leaf, hfirst, hsolid, hstart⟩ := Ast.Statement.led_of_orderly horderly hread
    have hwithin := Ast.Part.within_ofTree start tree
    rw [hread] at hwithin
    refine ⟨leaf, hfirst, hsolid, by rw [Text.LineIndex.firstLine, hstart], ?_⟩
    rw [Text.LineIndex.lastLine, Ast.Extent.stop_core (Option.isSome_of_mem hfirst)]
    exact Text.LineIndex.line_mono _ hwithin.start_le
  · intro extent exprs assigns augments hint hmem e he
    obtain ⟨start, tree, horderly, hread⟩ := Ast.Script.exists_orderly hmem
    obtain ⟨leaf, hfirst, -, hstart⟩ := Ast.Expr.led_of_orderly horderly hread e he
    exact ⟨leaf, hfirst, hstart, by rw [Text.LineIndex.firstSite, hfirst]⟩

end QuantumScript
