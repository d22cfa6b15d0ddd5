import QuantumScript.Proofs.Folding.Origins
import QuantumScript.Proofs.Lists
import QuantumScript.Proofs.Walking.Margins
/-!
# Order of folded statements

Folding goes from left to right. The folded statements stand in the order of those that they come from, their
leaves in the order of the source, and the targets of an assignment before its value.
-/

namespace QuantumScript

namespace Folding

open Text (LineIndex Row)
open Syntax Term

section Assignments

variable {index : LineIndex}

private theorem exprs_of_forall₂ {targets : List Ast.Expr} {terms : List Term}
    (h : List.Forall₂ (fun target term => expr index target = some term) targets terms) :
    exprs index targets = terms := by
  induction h with
  | nil => rfl
  | cons htarget _ ih => rw [exprs, htarget, ih, Option.toList_some, List.singleton_append]

private theorem assignment_eq_some {targets : List Ast.Expr} {value term : Term}
    (h : assignment index targets value = some term) :
    ∃ terms, List.Forall₂ (fun target term => expr index target = some term) targets terms ∧
      term = terms.foldr .assignment value := by
  induction targets generalizing term with
  | nil =>
    cases h
    exact ⟨[], .nil, rfl⟩
  | cons target rest ih =>
    unfold assignment at h
    split at h
    · rename_i folded others htarget hothers
      cases h
      obtain ⟨terms, hterms, rfl⟩ := ih hothers
      exact ⟨folded :: terms, .cons htarget hterms, rfl⟩
    · cases h

/-- The term is made of targets, each of them folded, and of the value, which is left empty if it does not
fold. -/
def Assigns (index : LineIndex) (targets : List Ast.Expr) (value : Ast.Expr) (term : Term) : Prop :=
  ∃ terms, List.Forall₂ (fun target term => expr index target = some term) targets terms ∧
    term = terms.foldr .assignment ((expr index value).getD (.expression []))

private theorem statement_eq_some {source : Ast.Statement} {folded : FoldedStatement}
    (h : statement index source = some folded) :
    ∃ extent targets value assigns hint,
      source = .expressionStatement extent (targets ++ [value]) assigns false hint ∧
        Assigns index targets value folded.term := by
  unfold statement at h
  split at h
  · rename_i extent items assigns augments hint
    split at h
    · rename_i value hlast
      obtain ⟨term, hterm, rfl⟩ := Option.map_eq_some_iff.mp h
      obtain ⟨last, hfolded, hassigned⟩ := Option.bind_eq_some_iff.mp hterm
      obtain ⟨targets, rfl⟩ := List.getLast?_eq_some_iff.mp hlast
      rw [List.dropLast_concat] at hfolded hassigned
      obtain ⟨terms, hterms, rfl⟩ := assignment_eq_some hassigned
      refine ⟨extent, targets, value, assigns, hint, rfl, terms, hterms, ?_⟩
      split at hfolded
      · rw [hfolded, Option.getD_some]
      · cases hfolded
        rfl
    · cases h
  · cases h

variable {targets : List Ast.Expr} {value : Ast.Expr} {term : Term}

private theorem Assigns.leaves_eq (h : Assigns index targets value term) :
    term.leaves = leavesAll (exprs index (targets ++ [value])) := by
  obtain ⟨terms, hterms, rfl⟩ := h
  have hvalue : ((expr index value).getD (.expression [])).leaves = leavesAll (expr index value).toList := by
    cases expr index value with
    | none => rfl
    | some folded => exact (leavesAll_singleton folded).symm
  rw [leaves_foldr_assignment, hvalue, leavesAll_exprs, List.flatMap_append, List.flatMap_singleton,
    ← leavesAll_exprs, exprs_of_forall₂ hterms]

private theorem Assigns.assignments_eq (h : Assigns index targets value term) :
    term.assignments = targets.length := by
  obtain ⟨terms, hterms, rfl⟩ := h
  have hvalue : ((expr index value).getD (.expression [])).assignments = 0 := by
    cases hfolded : expr index value with
    | none => rfl
    | some folded => exact (keeps_plain index).expr value folded hfolded
  rw [assignments_foldr_assignment ?_ hvalue, hterms.length_eq]
  rw [← exprs_of_forall₂ hterms]
  exact (keeps_plain index).exprs targets

end Assignments

/-- The leaves are shown in order. -/
def Increasing (leaves : List Term) : Prop :=
  leaves.Pairwise fun leaf next => ∃ position other, leaf.position? = some position ∧
    next.position? = some other ∧ position.Precedes other

private theorem increasing_of_row {text : List Char} {first last : Nat} {leaves : List Term}
    (h : Row text (Stems text) first last leaves) : Increasing leaves := by
  refine h.pairwise.imp ?_
  rintro leaf next ⟨span, after, hleaf, hnext, hcuts, hafter, hle⟩
  exact ⟨_, _, hleaf.position, hnext.position, LineIndex.precedes_position hcuts.start.boundary hafter.start.boundary
    (Nat.lt_of_lt_of_le hcuts.nonempty hle)⟩

/-- What a statement folds to comes from the statement. -/
structure Renders (text : List Char) (source : Ast.Statement) (folded : FoldedStatement) : Prop where
  folds : statement (.ofText text) source = some folded
  /-- The leaves come from spans of the statement that follow one another, and those with names from
  identifiers. -/
  row : Row text (Stems text) source.extent.core.start source.extent.core.stop folded.term.leaves
  increasing : Increasing folded.term.leaves
  /-- All expressions but the last are targets. -/
  assigns : ∃ extent targets value assigns hint,
    source = .expressionStatement extent (targets ++ [value]) assigns false hint ∧
      Assigns (.ofText text) targets value folded.term ∧ folded.term.assignments = targets.length
  /-- Each equals sign of the statement is an assignment. -/
  signs : ∃ start children, Ast.Part.ofTree start (.node .expressionStatement children) = .statement source ∧
    folded.term.assignments = (Ast.Part.ofTrees start children).countP (Ast.Part.isToken (.symbol .equals))

/-- A statement folds to what comes from it, whatever stands before and after it. -/
theorem renders_of_tree {text : List Char} {start : Nat} {tree : Tree} (hsettled : tree.EachSimple Tree.Formed)
    (h : Spelled text start tree.leaves) {source : Ast.Statement}
    (hread : Ast.Part.ofTree start tree = .statement source) {folded : FoldedStatement}
    (hfolds : statement (.ofText text) source = some folded) : Renders text source folded := by
  obtain ⟨extent, targets, value, assigns, hint, rfl, hassigns⟩ := statement_eq_some hfolds
  obtain ⟨children, rfl⟩ := Ast.Part.kind_of_expressionStatement hread
  have hformed : Tree.Formed (.node .expressionStatement children) := by
    cases hsettled with
    | node hsimple _ => exact hsimple rfl
  have hrow : Row text (Stems text) extent.core.start extent.core.stop folded.term.leaves := by
    have htraced := tracedPart_ofTree hformed h
    rw [hread] at htraced
    rw [hassigns.leaves_eq]
    exact htraced
  have hpromised : (targets ++ [value]).length =
      (Ast.Part.ofTrees start children).countP (Ast.Part.isToken (.symbol .equals)) + 1 := by
    cases hformed with
    | node hfits _ =>
      have hpromised := Ast.Part.promised_of_fits start hfits
      rw [hread] at hpromised
      exact hpromised
  refine ⟨hfolds, hrow, increasing_of_row hrow, ⟨extent, targets, value, assigns, hint, rfl, hassigns,
    hassigns.assignments_eq⟩, start, children, hread, ?_⟩
  rw [hassigns.assignments_eq]
  rw [List.length_append, List.length_singleton] at hpromised
  exact Nat.succ.inj hpromised

/-- Folding keeps the order of the source and real positions. The folded statements come one by one from
statements that follow one another in the script. The leaves of each come from spans of whole tokens that
follow one another within the significant tokens of its statement and do not overlap, so no token becomes two
leaves; they are shown at these spans, so at positions that increase, and a variable, a call or an element has
the name of the identifier that stands exactly there. Of the expressions of the statement all but the last are
targets, as many as there are equals signs, and the term nests just so many assignments, of the targets in
their order, to the right. -/
theorem folded_in_order (text : List Char) :
    ∃ sources : List Ast.Statement, sources.Sublist (Ast.Script.ofTree (parse text).tree).statements ∧
      sources.Pairwise (fun source next => source.extent.core.stop ≤ next.extent.core.start) ∧
      List.Forall₂ (Renders text) sources (ofText text) := by
  obtain ⟨children, htree⟩ : ∃ children, (parse text).tree = .node .file children := ⟨_, rfl⟩
  have hspelled := spelled_parse text
  have hsettled := parse_settled text
  have hrooted := parse_rooted text
  rw [htree] at hspelled hsettled hrooted
  have hscript : (Ast.Script.ofTree (parse text).tree).statements =
      (Ast.Part.ofTrees 0 children).filterMap Ast.Part.statement? := by
    rw [htree, Ast.Script.ofTree, Ast.Part.ofTree]
    rfl
  have hmem {source : Ast.Statement} (h : source ∈ (Ast.Part.ofTrees 0 children).filterMap Ast.Part.statement?) :
      .statement source ∈ Ast.Part.ofTrees 0 children := by
    obtain ⟨part, hpart, hsource⟩ := List.mem_filterMap.mp h
    cases part <;> cases hsource
    exact hpart
  have hrow : Row text (fun source span => source.extent.core = span) 0 (0 + Tree.byteLengthAll children)
      ((Ast.Part.ofTrees 0 children).filterMap Ast.Part.statement?) := by
    refine Ast.Part.row_picked (Ast.Part.row_ofTrees hspelled) (fun part source hsource => ?_)
      fun part hpart source hsource => ?_
    · cases part <;> cases hsource
      rfl
    · cases part <;> cases hsource
      exact (Inference.solid_of_statement hrooted.2 hpart).1
  -- The statements that fold are in the row that all statements of the script are in.
  refine ⟨_, List.filter_sublist, (hrow.pairwise.imp ?_).sublist (hscript ▸ List.filter_sublist),
    forall₂_filterMap fun source hsource folded hfolds => ?_⟩
  · rintro source next ⟨span, after, rfl, rfl, -, -, hle⟩
    exact hle
  · obtain ⟨start, tree, htreeMem, hread, htreeSpelled⟩ := hspelled.exists_of_mem (hmem (hscript ▸ hsource))
    cases hsettled with
    | node _ hchildren => exact renders_of_tree (hchildren tree htreeMem) htreeSpelled hread hfolds

/-- The names of a statement with two targets and a call, each with its position. -/
example : (ofText "a = b = f(x)".toList).map (fun folded => folded.term.leaves.map fun leaf =>
    (leaf.name?, leaf.position?)) =
    [[(some "a", some ⟨0, 0, 1⟩), (some "b", some ⟨0, 4, 5⟩), (some "f", some ⟨0, 8, 9⟩),
      (some "x", some ⟨0, 10, 11⟩)]] := by
  cbv

end Folding

end QuantumScript
